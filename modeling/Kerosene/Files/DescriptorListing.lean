import Kerosene.Files.Iteration
import Kerosene.Ramfs.AllOrNothing
import Kerosene.Ramfs.OrderedSet

/-!
# A descriptor lists what its node lists

The adapters carry the index and the cluster or datanode over every boundary. The node is not carried, so that each
call lists the directory when it happens to find a node of the same volume.
-/

namespace Kerosene.Files
open Lib Ramfs

variable {nodes : Nat → Option Node} {fuel rounds call count : Nat} {junk : Nat → Junk} {dirents : List Dirent} {node : Node}
  {dir : DirectoryDescription} {at_ : Int × Nat}

/-! ## On one volume -/

-- the calls on a volume, whichever node they come from
def Volume.entries (v : Volume) (fuel : Nat) (junk : Nat → Junk) : (rounds : Nat) → (call : Nat) → Int × Nat → Option (List Dirent)
  | 0, _, _ => none
  | rounds + 1, call, at_ =>
      match v.iterateDirectory fuel (junk call).stale at_ with
      | some (.ok (dirent, at_)) => (Volume.entries v fuel junk rounds (call + 1) at_).map (dirent :: ·)
      | some (.error .eof) => some []
      | _ => none

theorem nodeIterateDirectory_eq {a : Nat} (here : nodes a = some node) (stale : Fat32.Stale) (at_ : Int × Nat) :
    nodeIterateDirectory nodes fuel stale ⟨a, at_.1, at_.2⟩ = (node.volume.iterateDirectory fuel stale at_).map
      fun r => r.map fun found => (found.1, ⟨a, found.2.1, found.2.2⟩) := by
  rw [nodeIterateDirectory]
  simp only [here, Option.bind_eq_bind, Option.bind_some]
  cases node.volume.iterateDirectory fuel stale at_ with
  | none => rfl
  | some r =>
      cases r with
      | error err => rfl
      | ok found => rfl

theorem nodeEntries_eq {a : Nat} (here : nodes a = some node) :
    nodeEntries nodes fuel junk rounds call ⟨a, at_.1, at_.2⟩ = node.volume.entries fuel junk rounds call at_ := by
  induction rounds generalizing call at_ with
  | zero => rfl
  | succ rounds ih =>
      rw [nodeEntries, Volume.entries, nodeIterateDirectory_eq here]
      cases node.volume.iterateDirectory fuel (junk call).stale at_ with
      | none => rfl
      | some r =>
          cases r with
          | error err => cases err <;> rfl
          | ok found => exact congrArg (Option.map (found.1 :: ·)) ih

/-! ## From call to call -/

/-- A call that finds a node of the volume on its stack. -/
def OnVolume (nodes : Nat → Option Node) (v : Volume) (junk : Junk) : Prop := ∃ other, nodes junk.node = some other ∧ other.volume = v

section
variable (here : nodes dir.node = some node) (isDirectory : fsNodeType node.flags = fsNodeTypeDirectory)
  (reads : dir.mode.has fileOpenRead)
include here isDirectory reads

theorem fileIterateDirectory_eq (junk : Junk) : fileIterateDirectory nodes fuel junk dir =
    (nodeIterateDirectory nodes fuel junk.stale ⟨junk.node, dir.currentIndex, dir.current⟩).map
      fun r => r.map fun found => (found.1, saveDiriterAdapter dir found.2) := by
  rw [fileIterateDirectory]
  simp only [here, Option.bind_eq_bind, Option.bind_some]
  rw [if_neg (not_not.mpr isDirectory), if_neg (not_not.mpr reads), makeDiriterAdapter]
  cases nodeIterateDirectory nodes fuel junk.stale ⟨junk.node, dir.currentIndex, dir.current⟩ with
  | none => rfl
  | some r =>
      cases r with
      | error err => rfl
      | ok found => rfl

theorem fileEntries_of_onVolume (listed : node.volume.entries fuel junk rounds call (dir.currentIndex, dir.current) = some dirents)
    (onVolume : ∀ k ≤ dirents.length, OnVolume nodes node.volume (junk (call + k))) :
    fileEntries nodes fuel junk rounds call dir = some dirents := by
  induction rounds generalizing call dir dirents with
  | zero => exact listed
  | succ rounds ih =>
      obtain ⟨other, there, same⟩ := onVolume 0 (Nat.zero_le _)
      rw [Nat.add_zero] at there
      rw [fileEntries, fileIterateDirectory_eq here isDirectory reads,
        nodeIterateDirectory_eq there _ (dir.currentIndex, dir.current), same]
      rw [Volume.entries] at listed
      cases step : node.volume.iterateDirectory fuel (junk call).stale (dir.currentIndex, dir.current) with
      | none =>
          rw [step] at listed
          cases listed
      | some r =>
          rw [step] at listed
          cases r with
          | error err => cases err <;> exact listed
          | ok found =>
              obtain ⟨later, rest, rfl⟩ := Option.map_eq_some_iff.mp listed
              have next : fileEntries nodes fuel junk rounds (call + 1)
                  (saveDiriterAdapter dir ⟨(junk call).node, found.2.1, found.2.2⟩) = some later :=
                ih here reads rest fun k less => by
                  have placed := onVolume (k + 1) (by rw [List.length_cons]; omega)
                  rwa [← Nat.add_assoc, Nat.add_right_comm] at placed
              exact congrArg (Option.map (found.1 :: ·)) next

theorem nodes_of_fileEntries (listed : fileEntries nodes fuel junk rounds call dir = some dirents) :
    ∀ k ≤ dirents.length, nodes (junk (call + k)).node ≠ none := by
  induction rounds generalizing call dir dirents with
  | zero => cases listed
  | succ rounds ih =>
      have first : nodes (junk call).node ≠ none := by
        intro missing
        rw [fileEntries, fileIterateDirectory_eq here isDirectory reads, nodeIterateDirectory] at listed
        simp only [missing, Option.bind_eq_bind, Option.bind_none, Option.map_none] at listed
        cases listed
      obtain ⟨other, there⟩ := Option.ne_none_iff_exists'.mp first
      rw [fileEntries, fileIterateDirectory_eq here isDirectory reads,
        nodeIterateDirectory_eq there _ (dir.currentIndex, dir.current)] at listed
      cases step : other.volume.iterateDirectory fuel (junk call).stale (dir.currentIndex, dir.current) with
      | none =>
          rw [step] at listed
          cases listed
      | some r =>
          rw [step] at listed
          cases r with
          | error err =>
              cases err
              all_goals
                cases listed
              intro k less
              obtain rfl := Nat.le_zero.mp less
              exact first
          | ok found =>
              obtain ⟨later, rest, rfl⟩ := Option.map_eq_some_iff.mp listed
              have next := ih (by exact here) (by exact reads) rest
              intro k less
              cases k with
              | zero => exact first
              | succ k =>
                  rw [← Nat.add_assoc, Nat.add_right_comm]
                  exact next k (by rw [List.length_cons] at less; omega)

end

/-! ## Directories of the two kinds -/

theorem address_val (a : Addr) : address a.val = a := Fin.ofNat_val_eq_self a

theorem Volume.entries_ramfs (h : Heap) (i : Ramfs.Heap.DirectoryIterator) :
    (Volume.ramfs h).entries fuel junk rounds call (i.currentIndex, i.currentDatanode.val) =
      (h.iterateAll rounds i).map (List.map fun node => direntOf node.name node.flags) := by
  induction rounds generalizing call i with
  | zero => rfl
  | succ rounds ih =>
      rw [Volume.entries, Volume.iterateDirectory, Heap.iterateAll]
      dsimp only
      rw [address_val]
      cases h.ramfsIterateDirectory i with
      | none => rfl
      | some r =>
          cases r with
          | error err => rfl
          | ok found =>
              change Option.map _ ((Volume.ramfs h).entries fuel junk rounds (call + 1) _) = _
              rw [ih]
              cases listed : h.iterateAll rounds found.2 <;> simp [listed]

theorem Volume.entries_fat32 (d : Fat32.Disk) (rootdirCluster : UInt32) (i : Fat32.DirectoryIterator) :
    (Volume.fat32 d rootdirCluster).entries fuel junk rounds call (i.currentIndex, i.currentCluster) =
      (d.iterateAll rootdirCluster fuel (fun r => (junk (rounds + call - 1 - r)).stale) rounds i).map
        (List.map fun entry => direntOf entry.name entry.flags) := by
  induction rounds generalizing call i with
  | zero => rfl
  | succ rounds ih =>
      have last : rounds + 1 + call - 1 - rounds = call := by omega
      have later : rounds + 1 + call = rounds + (call + 1) := by omega
      rw [Volume.entries, Volume.iterateDirectory, Fat32.Disk.iterateAll, last, later]
      dsimp only
      cases d.fat32IterateDirectory rootdirCluster fuel i (junk call).stale.ret (junk call).stale.entryName with
      | none => rfl
      | some r =>
          obtain ⟨err, found⟩ := r
          cases found with
          | none => cases err <;> rfl
          | some found =>
              cases err
              case success =>
                change Option.map _ ((Volume.fat32 d rootdirCluster).entries fuel junk rounds (call + 1) _) = _
                rw [ih]
                dsimp only
                rw [Option.map_map, Option.map_map]
                rfl
              all_goals rfl

/-- A directory of one of the two file systems, its entries, and a number of calls that is enough for them. -/
inductive Node.Lists (fuel : Nat) : Node → List Dirent → (count : Nat) → Prop
  | ramfs {h : Heap} {flags : BitVec 32} {a chain : Addr} {datanodes : List Addr} {slots : List Slot} {ramnode : Ramnode}
      (dir : h.Directory chain datanodes slots) (here : h.ramnode a = some ramnode) (data : ramnode.data = some chain) :
      Lists fuel ⟨.ramfs h, flags, a.val⟩ ((h.listing slots).map fun node => direntOf node.name node.flags) slots.length
  | fat32 {d : Fat32.Disk} {flags : BitVec 32} {chain : List Nat} {items : List Fat32.Item} {rootdirCluster : UInt32}
      (sized : d.Sized) (dir : d.Directory chain items) (enough : chain.length ≤ fuel) :
      Lists fuel ⟨.fat32 d rootdirCluster, flags, chain.getD 0 0⟩
        ((d.filesFrom chain rootdirCluster 0 items).map fun entry => direntOf entry.name entry.flags) items.length

theorem Node.Lists.listed (lists : node.Lists fuel dirents count) (enough : count < rounds) :
    ∃ at_, node.volume.setupDirectoryIterator node.first = some at_ ∧
      ∀ junk, node.volume.entries fuel junk rounds 0 at_ = some dirents := by
  cases lists with
  | @ramfs h flags a chain datanodes slots ramnode dir here data =>
      refine ⟨(-1, chain.val), ?_, fun junk => ?_⟩
      · simp [Volume.setupDirectoryIterator, Heap.ramfsSetupDirectoryIterator, address_val, here, data]
      · have listed : (Volume.ramfs h).entries fuel junk rounds 0 (-1, chain.val) = _ := Volume.entries_ramfs h ⟨-1, chain⟩
        rw [dir.iterateAll_first enough, Heap.mapM_fsNodeOf dir.live] at listed
        exact listed
  | @fat32 d flags chain items rootdirCluster sized dir enoughFuel =>
      obtain ⟨tail, slots, stops⟩ := dir.slots
      refine ⟨(-32, chain.getD 0 0), rfl, fun junk => ?_⟩
      have listed : (Volume.fat32 d rootdirCluster).entries fuel junk rounds 0 (-32, chain.getD 0 0) = _ :=
        Volume.entries_fat32 d rootdirCluster (d.iterAt chain 0)
      rw [Fat32.Disk.iterateAll_items (p := 0) sized dir.on dir.nonempty dir.valid slots (Nat.zero_le _) stops.quiet enoughFuel
        enough] at listed
      exact listed

/-! ## The two listings -/

section
variable {a : Nat} (here : nodes a = some node) (lists : node.Lists fuel dirents count) (enough : count < rounds)
include here lists enough

theorem Node.Lists.nodeListing (junk : Nat → Junk) : nodeListing nodes fuel junk rounds a = some dirents := by
  obtain ⟨at_, start, listed⟩ := lists.listed enough
  simp only [Files.nodeListing, nodeSetupDirectoryIterator, here, start, Option.bind_eq_bind, Option.bind_some]
  exact (nodeEntries_eq here).trans (listed junk)

theorem Node.Lists.fileListing (isDirectory : fsNodeType node.flags = fsNodeTypeDirectory) (opened : dir.node = a)
    (reads : dir.mode.has fileOpenRead) (junk : Nat → Junk) : ∃ ready : DirectoryDescription,
      fileListing nodes fuel junk rounds dir = fileEntries nodes fuel junk rounds 0 ready ∧ ready.node = a ∧ ready.mode = dir.mode ∧
      node.volume.entries fuel junk rounds 0 (ready.currentIndex, ready.current) = some dirents := by
  obtain ⟨at_, start, listed⟩ := lists.listed enough
  subst opened
  refine ⟨{ dir with currentIndex := at_.1, current := at_.2 }, ?_, rfl, rfl, listed junk⟩
  rw [Files.fileListing, fileSetupDirectoryIterator]
  simp only [here, Option.bind_eq_bind, Option.bind_some]
  rw [if_neg (not_not.mpr isDirectory), if_neg (not_not.mpr reads), nodeSetupDirectoryIterator]
  simp only [here, start, Option.bind_eq_bind, Option.bind_some]
  rfl

/-- The descriptor lists what the node does when each call finds a node of the same volume where it takes its
uninitialised pointer from, and only then unless a call finds a node of another volume there. -/
theorem descriptor_lists_node (isDirectory : fsNodeType node.flags = fsNodeTypeDirectory) (opened : dir.node = a)
    (reads : dir.mode.has fileOpenRead) (junk junk' : Nat → Junk) :
    ((∀ k ≤ dirents.length, OnVolume nodes node.volume (junk k)) →
      fileListing nodes fuel junk rounds dir = nodeListing nodes fuel junk' rounds a) ∧
    ((∀ k ≤ dirents.length, nodes (junk k).node = none ∨ OnVolume nodes node.volume (junk k)) →
      (fileListing nodes fuel junk rounds dir = nodeListing nodes fuel junk' rounds a ↔
        ∀ k ≤ dirents.length, OnVolume nodes node.volume (junk k))) := by
  obtain ⟨ready, setup, same, mode, listed⟩ := lists.fileListing here enough isDirectory opened reads junk
  rw [lists.nodeListing here enough junk', setup]
  rw [← same] at here
  rw [← mode] at reads
  have sufficient (all : ∀ k ≤ dirents.length, OnVolume nodes node.volume (junk k)) :
      fileEntries nodes fuel junk rounds 0 ready = some dirents :=
    fileEntries_of_onVolume here isDirectory reads listed fun k less => by
      rw [Nat.zero_add]
      exact all k less
  refine ⟨sufficient, fun found => ⟨fun equal k less => ?_, sufficient⟩⟩
  refine (found k less).resolve_left ?_
  have some_node := nodes_of_fileEntries here isDirectory reads equal k less
  rwa [Nat.zero_add] at some_node

end

/-! ## A new root directory -/

-- its node is at 4096
def rootNodes : Nat → Option Node := fun a => if a = 4096 then some ⟨.ramfs Heap.rootHeap, fsNodeTypeDirectory, 10⟩ else none

def rootDescription : DirectoryDescription := ⟨4096, fileOpenRead, 0, 0⟩

def zeroedNode : Fat32.FsNode := ⟨fun _ => 0, 0, 0, 0, 0, 0, 0, 0, 0, 0⟩

def junkOf (node : Nat) : Nat → Junk := fun _ => ⟨node, zeroedNode, fun _ => 0⟩

theorem rootNodes_lists : Node.Lists 0 ⟨.ramfs Heap.rootHeap, fsNodeTypeDirectory, 10⟩ [] 0 :=
  .ramfs Heap.rootHeap_directory Heap.rootHeap_node rfl

theorem rootNodes_here : rootNodes 4096 = some ⟨.ramfs Heap.rootHeap, fsNodeTypeDirectory, 10⟩ := rfl

/-- With a null pointer on the stack, not even an empty directory is listed. -/
theorem null_lists_nothing : ¬ ∀ (nodes : Nat → Option Node) (fuel rounds count a : Nat) (node : Node) (dirents : List Dirent)
    (dir : DirectoryDescription) (junk junk' : Nat → Junk), nodes a = some node → node.Lists fuel dirents count → count < rounds →
      fsNodeType node.flags = fsNodeTypeDirectory → dir.node = a → dir.mode.has fileOpenRead →
        fileListing nodes fuel junk rounds dir = nodeListing nodes fuel junk' rounds a := by
  intro always
  have equal := always rootNodes 0 1 0 4096 _ [] rootDescription (junkOf 0) (junkOf 0) rootNodes_here rootNodes_lists (by decide)
    (by decide) rfl (by decide)
  obtain ⟨ready, setup, same, mode, -⟩ : ∃ ready, fileListing rootNodes 0 (junkOf 0) 1 rootDescription = _ ∧ _ :=
    rootNodes_lists.fileListing rootNodes_here (by decide) (by decide) rfl (by decide) (junkOf 0)
  rw [rootNodes_lists.nodeListing rootNodes_here (by decide), setup] at equal
  have here : rootNodes ready.node = _ := (congrArg rootNodes same).trans rootNodes_here
  exact nodes_of_fileEntries here (by decide) (by rw [mode]; decide) equal 0 le_rfl rfl

/-! ## Listings over a boundary -/

-- the last entry of one datanode and the first of the next, behind entries that were removed
def lettersSlots : List Slot := .ramnode 1001 :: (List.replicate 126 .emptyEntry ++ [.ramnode 1002, .ramnode 1003])

def lettersHeap : Heap where
  ramnode a :=
    if a = 10 then some ⟨[], fsNodeTypeDirectory, 0, some 20⟩
    else if a = 1001 then some ⟨[0x61], fsNodeTypeFile, 0, none⟩
    else if a = 1002 then some ⟨[0x62], fsNodeTypeDirectory, 0, none⟩
    else if a = 1003 then some ⟨[0x63], fsNodeTypePipe, 0, none⟩
    else none
  datanode a :=
    if a = 20 then some ⟨some 30, ⟨(lettersSlots.take 128).toArray, rfl⟩⟩
    else if a = 30 then some ⟨none, noEntries.set 0 (.ramnode 1003)⟩
    else none

theorem lettersHeap_node : lettersHeap.ramnode 10 = some ⟨[], fsNodeTypeDirectory, 0, some 20⟩ := rfl

theorem lettersHeap_directory : lettersHeap.Directory 20 [20, 30] lettersSlots := by
  have entries : Heap.entries lettersSlots = [1001, 1002, 1003] := by decide +kernel
  refine ⟨⟨⟨by simp [Seg, Datanodes.link, lettersHeap], by simp [lettersHeap]⟩, by decide +kernel, by decide +kernel,
    by decide +kernel⟩, by decide +kernel, ?_, by decide +kernel⟩
  rw [entries]
  simp [lettersHeap]

-- the directory entry of a file whose name is one letter
def letterSlot (letter : UInt8) : List UInt8 := letter :: List.replicate 11 0x20 ++ List.replicate 20 0

def deletedSlot : List UInt8 := 0xe5 :: List.replicate 31 0

def letterFile (letter : UInt8) : Fat32.Item := .file (Fat32.sfnText (.ofBytes (letterSlot letter))) [] (letterSlot letter)

-- the last slot of one cluster and the first of the next
def lettersItems : List Fat32.Item :=
  letterFile 0x41 :: (List.replicate 14 (.hole deletedSlot) ++ [letterFile 0x42, letterFile 0x43])

def lettersDisk : Fat32.Disk where
  fat := ⟨fun c => if c = 2 then 3 else if c = 3 then BitVec.ofNat 32 Fat32.fatEoc else 0, 2, 2, 0⟩
  sectorsPerCluster := 1
  data c i := if c = 2 then (Fat32.slotsOf lettersItems).flatten.getD i 0 else if c = 3 then (letterSlot 0x43).getD i 0 else 0

theorem lettersDisk_directory : lettersDisk.Directory [2, 3] lettersItems where
  on := ⟨.cons_cons (by decide) (.singleton 3), by decide, by decide⟩
  nonempty := by decide
  valid := by
    have file : ∀ letter ∈ [0x41, 0x42, 0x43], (letterFile letter).Valid := by
      intro letter member
      refine .file ⟨?_, ?_, ?_⟩ (.short ?_) <;> revert letter <;> decide +kernel
    intro item member
    simp only [lettersItems, List.mem_cons, List.mem_append, List.mem_replicate, List.not_mem_nil, or_false] at member
    rcases member with rfl | ⟨-, rfl⟩ | rfl | rfl
    · exact file 0x41 (by decide)
    · exact .hole rfl
    · exact file 0x42 (by decide)
    · exact file 0x43 (by decide)
  slots := by
    have first : (lettersDisk.dirSlots [2, 3]).take 17 = Fat32.slotsOf lettersItems := by decide +kernel
    refine ⟨(lettersDisk.dirSlots [2, 3]).drop 17, ?_, ?_⟩
    · rw [← first, List.take_append_drop]
    · have second : ((lettersDisk.dirSlots [2, 3]).drop 17).head? = some (List.replicate 32 0) := by decide +kernel
      intro slot head
      rw [second] at head
      cases head
      rfl

def lettersNodes : Nat → Option Node := fun a =>
  if a = 4096 then some ⟨.ramfs lettersHeap, fsNodeTypeDirectory, 10⟩
  else if a = 8192 then some ⟨.fat32 lettersDisk 2, fsNodeTypeDirectory, 2⟩
  else none

theorem descriptor_lists_node_letters :
    (fileListing lettersNodes 2 (junkOf 4096) 130 ⟨4096, fileOpenRead, 0, 0⟩ = nodeListing lettersNodes 2 (junkOf 0) 130 4096 ∧
      nodeListing lettersNodes 2 (junkOf 0) 130 4096 = some [⟨dtReg, [0x61]⟩, ⟨dtDir, [0x62]⟩, ⟨dtFifo, [0x63]⟩]) ∧
    fileListing lettersNodes 2 (junkOf 8192) 18 ⟨8192, fileOpenRead, 0, 0⟩ = nodeListing lettersNodes 2 (junkOf 0) 18 8192 ∧
      nodeListing lettersNodes 2 (junkOf 0) 18 8192 = some [⟨dtReg, [0x41]⟩, ⟨dtReg, [0x42]⟩, ⟨dtReg, [0x43]⟩] := by
  have ram : lettersNodes 4096 = some ⟨.ramfs lettersHeap, fsNodeTypeDirectory, 10⟩ := rfl
  have disk : lettersNodes 8192 = some ⟨.fat32 lettersDisk 2, fsNodeTypeDirectory, 2⟩ := rfl
  have ramLists : Node.Lists 2 ⟨.ramfs lettersHeap, fsNodeTypeDirectory, 10⟩ _ _ := .ramfs lettersHeap_directory lettersHeap_node rfl
  have diskLists : Node.Lists 2 ⟨.fat32 lettersDisk 2, fsNodeTypeDirectory, 2⟩ _ _ :=
    .fat32 ⟨by decide, by decide⟩ lettersDisk_directory le_rfl
  refine ⟨⟨(descriptor_lists_node ram ramLists (by decide +kernel) (by decide) rfl (by decide) (junkOf 4096) (junkOf 0)).1
    fun _ _ => ⟨_, ram, rfl⟩, ?_⟩, (descriptor_lists_node disk diskLists (by decide) (by decide) rfl (by decide) (junkOf 8192)
    (junkOf 0)).1 fun _ _ => ⟨_, disk, rfl⟩, ?_⟩
  · rw [ramLists.nodeListing ram (by decide +kernel)]
    decide +kernel
  · rw [diskLists.nodeListing disk (by decide)]
    decide +kernel

end Kerosene.Files
