import Kerosene.Fat32.CopiedFile

/-!
# Copies of more than 2^31 bytes

From there on a position is negative as an `int`, and the first write goes to the start of the cluster that was written
last. No later write puts that right.
-/

namespace Kerosene.Fat32
open Lib Libc Files
open Ramfs (Name fileOpenWrite fileOpenAppend FileMode.has)

variable {d : Disk} {chain : List Nat} {rest : List (List Nat)} {buffer : List UInt8} {r : WriteResult}
  {current j n offset fileSize nextPosition actual : Nat} {keep : Bool}

/-! ## One small write -/

/-- What a write leaves of the chain up to the cluster where it started, and of the first bytes of these clusters. -/
structure Kept (d : Disk) (chain : List Nat) (j : Nat) (buffer : List UInt8) (r : WriteResult) : Prop where
  stands : ∃ chain' rest' j', Stands r.disk chain' rest' j' r.current ∧ j ≤ j' ∧ chain'.take (j + 1) = chain.take (j + 1)
  sectors : r.disk.sectorsPerCluster = d.sectorsPerCluster
  bytes : ∀ c ∈ chain.take (j + 1), r.disk.data c 0 = d.data c 0 ∨ r.disk.data c 0 ∈ buffer

theorem patch_first (bytes : Nat → UInt8) (offset : Nat) (buffer : List UInt8) :
    patch bytes offset buffer 0 = bytes 0 ∨ patch bytes offset buffer 0 ∈ buffer := by
  rw [patch]
  split_ifs with inside
  · right
    have below : 0 - offset < buffer.length := by omega
    rw [List.getD_eq_getElem?_getD, List.getElem?_eq_getElem below, Option.getD_some]
    exact List.getElem_mem below
  · exact .inl rfl

theorem setData_first {cluster : Nat} {bytes : Nat → UInt8} {part : List UInt8} (d : Disk) (c offset : Nat) (sub : part ⊆ buffer)
    (old : bytes 0 = d.data cluster 0 ∨ bytes 0 ∈ buffer) :
    (d.setData cluster (patch bytes offset part)).data c 0 = d.data c 0 ∨
      (d.setData cluster (patch bytes offset part)).data c 0 ∈ buffer := by
  by_cases same : c = cluster
  · subst same
    rw [data_setData]
    rcases patch_first bytes offset part with kept | new
    · rwa [kept]
    · exact .inr (sub new)
  · rw [data_setData_of_ne same]
    exact .inl rfl

theorem writeRest_kept (stands : Stands d chain rest j current) (sized : 0 < d.clusterSize) (bytes : 0 < buffer.length)
    (small : buffer.length ≤ d.clusterSize) (done : d.writeRest keep current buffer actual = some r) (success : r.err = .success) :
    Kept d chain j buffer r ∧ r.actualWriteSize = actual + buffer.length := by
  obtain ⟨sectors, frame, first, -⟩ := writeRest_frame stands sized bytes done success
  have kept : ∀ c ∈ chain.take (j + 1), r.disk.data c 0 = d.data c 0 ∨ r.disk.data c 0 ∈ buffer := fun c member => by
    rw [List.take_add_one, stands.here] at member
    rcases List.mem_append.mp member with before | here
    · exact .inl (by rw [(frame c before).2])
    · obtain rfl := List.mem_singleton.mp here
      right
      rw [first, List.getD_eq_getElem?_getD, List.getElem?_eq_getElem bytes, Option.getD_some]
      exact List.getElem_mem bytes
  rcases small.lt_or_eq with short | whole
  · have zero : buffer.length / d.clusterSize = 0 := Nat.div_eq_of_lt short
    rw [Disk.writeRest, zero] at done
    cases done
    exact ⟨⟨⟨chain, rest, j, ⟨stands.volume, stands.partition, stands.here⟩, le_rfl, rfl⟩, sectors, kept⟩, rfl⟩
  · have one : buffer.length / d.clusterSize = 1 := by rw [whole, Nat.div_self sized]
    rw [Disk.writeRest, one] at done
    cases grown : d.fat.expandClusterChain current 1 with
    | none =>
        rw [grown] at done
        cases done
    | some result =>
        obtain ⟨new, g⟩ := result
        obtain ⟨taken, -, -, nonzero, grows⟩ := Fat.expand_grows stands.volume le_rfl stands.used grown
        rw [grown] at done
        dsimp only at done
        rw [if_neg nonzero] at done
        cases done
        have filled : buffer.length - (d.withFat g).clusterSize = 0 := Nat.sub_eq_zero_of_le small
        have left : Disk.writeClusters keep (0 + 1) (d.withFat g) current buffer actual =
            ⟨.success, (d.withFat g).putCluster current buffer, current, actual + (d.withFat g).clusterSize⟩ :=
          writeClusters_done filled
        have partition := stands.partition
        rw [stands.split] at partition
        have index := stands.index
        have front : (chain.take j).length = j := List.length_take_of_le index.le
        have here : (chain.take j ++ current :: taken)[j]? = some current := by
          rw [List.getElem?_append_right front.le, front, Nat.sub_self]
          rfl
        have stands' : Stands ((d.withFat g).putCluster current buffer) (chain.take j ++ current :: taken)
            (chain.drop (j + 1) :: rest) j current :=
          ⟨grows.volume stands.volume, grows.split partition, here⟩
        refine ⟨⟨⟨_, _, j, by rw [left]; exact stands', le_rfl, ?_⟩, sectors, kept⟩, by rw [left, whole]; rfl⟩
        rw [List.take_add_one, here, List.take_left' front, List.take_add_one, stands.here]

theorem writeFile_kept (stands : Stands d chain rest j current) (sized : 0 < d.clusterSize) (bytes : 0 < buffer.length)
    (small : buffer.length ≤ d.clusterSize) (done : d.writeFile current buffer offset fileSize nextPosition = some r)
    (success : r.err = .success) : Kept d chain j buffer r ∧ r.actualWriteSize = buffer.length := by
  rw [Disk.writeFile] at done
  cases advanced : d.advance (offset / d.clusterSize) current offset with
  | none =>
      rw [advanced] at done
      cases done
  | some result =>
      obtain ⟨err, d₁, current₁, offset₁⟩ := result
      rw [advanced] at done
      dsimp only at done
      by_cases failed : err = .success
      · subst failed
        obtain ⟨chain₁, j₁, stands₁, grown, later, -, data, sectors⟩ := advance_spec stands sized advanced
        have sameSize : d₁.clusterSize = d.clusterSize := by rw [Disk.clusterSize, sectors, Disk.clusterSize]
        have same : chain₁.take (j + 1) = chain.take (j + 1) := by
          obtain ⟨tail, rfl⟩ := grown
          exact List.take_append_of_le_length stands.index
        have before : ∀ c ∈ chain.take (j + 1), c ∈ chain₁.take (j₁ + 1) := fun c member => by
          rw [← same] at member
          exact List.take_subset_take_left _ (by omega) member
        have shorter : ∀ l : List Nat, l.take (j₁ + 1) = chain₁.take (j₁ + 1) → l.take (j + 1) = chain.take (j + 1) := fun l all => by
          have cut := congrArg (List.take (j + 1)) all
          rw [List.take_take, List.take_take, Nat.min_eq_left (by omega)] at cut
          exact cut.trans same
        -- what is kept from the cluster that the first loop stops at
        have back : ∀ d₂ : Disk, (∀ c, d₂.data c 0 = d.data c 0 ∨ d₂.data c 0 ∈ buffer) → ∀ part : List UInt8, part ⊆ buffer →
            d₂.sectorsPerCluster = d.sectorsPerCluster → Kept d₂ chain₁ j₁ part r → Kept d chain j buffer r :=
          fun d₂ first part sub sectors₂ kept => by
            obtain ⟨chain', rest', j', stands', after, all⟩ := kept.stands
            refine ⟨⟨chain', rest', j', stands', by omega, shorter _ all⟩, kept.sectors.trans sectors₂, fun c member => ?_⟩
            rcases kept.bytes c (before c member) with old | new
            · rw [old]
              exact first c
            · exact .inr (sub new)
        rw [if_neg (not_not.mpr rfl)] at done
        by_cases positive : offset₁ > 0
        · rw [if_pos positive] at done
          generalize patched :
            d₁.setData current₁ (patch (d₁.data current₁) offset₁ (buffer.take (d₁.clusterSize - offset₁))) = d₂ at done
          have stands₂ : Stands d₂ chain₁ rest j₁ current₁ := by
            rw [← patched]
            exact ⟨stands₁.volume, stands₁.partition, stands₁.here⟩
          have sectors₂ : d₂.sectorsPerCluster = d.sectorsPerCluster := by
            rw [← patched]
            exact sectors
          have first : ∀ c, d₂.data c 0 = d.data c 0 ∨ d₂.data c 0 ∈ buffer := fun c => by
            have := setData_first d₁ c offset₁ (List.take_subset (d₁.clusterSize - offset₁) buffer)
              (.inl (rfl : d₁.data current₁ 0 = d₁.data current₁ 0))
            rwa [patched, data] at this
          by_cases all : buffer.length ≤ d₁.clusterSize - offset₁
          · rw [if_pos all] at done
            cases done
            exact ⟨⟨⟨chain₁, rest, j₁, stands₂, later, same⟩, sectors₂, fun c _ => first c⟩, rfl⟩
          · rw [if_neg all] at done
            have size₂ : d₂.clusterSize = d.clusterSize := by rw [Disk.clusterSize, sectors₂, Disk.clusterSize]
            obtain ⟨kept, count⟩ := writeRest_kept stands₂ (by rwa [size₂]) (by rw [List.length_drop]; omega)
              (by rw [List.length_drop, size₂]; omega) done success
            refine ⟨back d₂ first _ (List.drop_subset ..) sectors₂ kept, ?_⟩
            rw [count, List.length_drop]
            omega
        · rw [if_neg positive] at done
          obtain ⟨kept, count⟩ := writeRest_kept stands₁ (by rwa [sameSize]) bytes (by rwa [sameSize]) done success
          exact ⟨back d₁ (fun c => .inl (by rw [data])) _ (List.Subset.refl _) sectors kept, count.trans (Nat.zero_add _)⟩
      · rw [if_pos failed] at done
        cases done
        exact absurd success failed

/-! ## The cluster that is written twice -/

variable {d' : Disk} {fuel parent total m x k : Nat} {name : Name} {scratch : Scratch} {slot : FatDescription} {opened time : Int}
  {node : FsNode} {s s' : FatCopy} {content : List UInt8} {given : Nat → Int}

/-- Cluster `x`, at index `m` of the new file, has been written from its start again, with a 1. -/
structure Stuck (node : FsNode) (size m x : Nat) (s : FatCopy) : Prop where
  stands : ∃ chain rest j, Stands s.disk chain rest j s.file.currentCluster ∧ m ≤ j ∧ chain[m]? = some x ∧
    chain.head? = some node.startCluster.toNat
  byte : s.disk.data x 0 = 1
  startCluster : s.node.startCluster = node.startCluster
  clusterSize : s.disk.clusterSize = size
  isFile : s.node.fatNode.isFile = true
  writes : s.file.mode.has fileOpenWrite = true
  noAppend : s.file.mode.has fileOpenAppend = false

theorem fileWrite_writeFile (isFile : s.node.fatNode.isFile = true) (writes : s.file.mode.has fileOpenWrite = true)
    (noAppend : s.file.mode.has fileOpenAppend = false)
    (done : (fatTarget d fuel parent name scratch slot opened).fileWrite s buffer time = some (.ok actual, s')) :
    ∃ r, s.disk.writeFile s.file.currentCluster buffer (offsetOf s.file.position s.disk.clusterSize) s.node.size.toNat
        (toUnsigned (toInt s.file.position + buffer.length)) = some r ∧ r.err = .success ∧ actual = r.actualWriteSize ∧
      s'.disk = r.disk ∧ s'.node.startCluster = s.node.startCluster ∧ s'.node.flags = s.node.flags ∧
      s'.file = { s.file with currentCluster := r.current, position := s.file.position + r.actualWriteSize } := by
  simp only [fatTarget, Disk.fileWrite, Disk.fat32FileWrite, isFile, writes, noAppend, not_true, if_false, Bool.false_eq_true,
    Option.map_map] at done
  obtain ⟨r, wrote, result⟩ := Option.map_eq_some_iff.mp done
  simp only [Function.comp_apply] at result
  by_cases success : r.err = .success
  · simp only [success, noAppend, Bool.false_eq_true, ne_eq, not_true, if_false, if_true, Prod.mk.injEq, Except.ok.injEq] at result
    obtain ⟨count, rfl⟩ := result
    exact ⟨r, wrote, success, by omega, rfl, rfl, rfl, rfl⟩
  · simp only [success, ne_eq, not_false_eq_true, if_true, if_false, Prod.mk.injEq, reduceCtorEq, false_and] at result

theorem Stuck.of_kept (stands : Stands s.disk chain rest j s.file.currentCluster) (after : m ≤ j) (here : chain[m]? = some x)
    (head : chain.head? = some node.startCluster.toNat) (isFile : s.node.fatNode.isFile = true)
    (writes : s.file.mode.has fileOpenWrite = true) (noAppend : s.file.mode.has fileOpenAppend = false)
    (kept : Kept s.disk chain j buffer r) (disk : s'.disk = r.disk) (start : s'.node.startCluster = node.startCluster)
    (flags : s'.node.flags = s.node.flags)
    (file : s'.file = { s.file with currentCluster := r.current, position := s.file.position + r.actualWriteSize })
    (byte : r.disk.data x 0 = 1) : Stuck node s.disk.clusterSize m x s' := by
  obtain ⟨chain', rest', j', stands', later, same⟩ := kept.stands
  have index := stands.index
  refine ⟨⟨chain', rest', j', ?_, by omega, ?_, ?_⟩, ?_, start, ?_, ?_, ?_, ?_⟩
  · rw [disk, file]
    exact stands'
  · have found := congrArg (fun l => l[m]?) same
    simp only [List.getElem?_take_of_lt (show m < j + 1 by omega)] at found
    exact found.trans here
  · have heads := congrArg List.head? same
    rw [List.head?_take, List.head?_take, if_neg (Nat.succ_ne_zero j), if_neg (Nat.succ_ne_zero j)] at heads
    exact heads.trans head
  · rw [disk, byte]
  · rw [disk, Disk.clusterSize, kept.sectors, Disk.clusterSize]
  · rw [← isFile, FsNode.fatNode, FsNode.fatNode, flags]
  · rw [file]
    exact writes
  · rw [file]
    exact noAppend

theorem Stuck.write {size : Nat} (stuck : Stuck node size m x s) (sized : 512 ≤ size) (bytes : 0 < buffer.length)
    (small : buffer.length ≤ 512)
    (ones : ∀ b ∈ buffer, b = 1)
    (done : (fatTarget d fuel parent name scratch slot opened).fileWrite s buffer time = some (.ok actual, s')) :
    Stuck node size m x s' ∧ actual = buffer.length := by
  obtain ⟨chain, rest, j, stands, after, here, head⟩ := stuck.stands
  obtain ⟨r, wrote, success, rfl, disk, start, flags, file⟩ := fileWrite_writeFile stuck.isFile stuck.writes stuck.noAppend done
  have clusterSize := stuck.clusterSize
  obtain ⟨kept, count⟩ := writeFile_kept stands (by omega) bytes (by omega) wrote success
  have member : x ∈ chain.take (j + 1) := by
    rw [← List.getElem?_take_of_lt (show m < j + 1 by omega)] at here
    exact List.mem_of_getElem? here
  have byte : r.disk.data x 0 = 1 := by
    rcases kept.bytes x member with old | new
    · rw [old, stuck.byte]
    · exact ones _ new
  have next := Stuck.of_kept stands after here head stuck.isFile stuck.writes stuck.noAppend kept disk (start.trans stuck.startCluster)
    flags file byte
  rw [clusterSize] at next
  exact ⟨next, count⟩

theorem Filling.sticks {stored : List UInt8} (filling : Filling d' node rest total s stored) (full : stored.length = 2 ^ 31)
    (bytes : 0 < buffer.length) (small : buffer.length ≤ 512) (ones : ∀ b ∈ buffer, b = 1)
    (done : (fatTarget d fuel parent name scratch slot opened).fileWrite s buffer time = some (.ok actual, s')) :
    ∃ x, Stuck node s.disk.clusterSize ((2 ^ 31 - 1) / s.disk.clusterSize) x s' ∧ actual = buffer.length := by
  obtain ⟨chain, appends⟩ := filling.appends
  have sized := appends.sized
  have units : 512 ≤ s.disk.clusterSize := Nat.le_of_dvd sized (Nat.dvd_mul_left 512 _)
  have position : s.file.position = 2 ^ 31 := by rw [appends.atEnd, appends.length, full]
  have stands := appends.toWritable.stands
  rw [position] at stands
  obtain ⟨r, wrote, success, rfl, disk, start, flags, file⟩ := fileWrite_writeFile appends.isFile appends.writes appends.noAppend done
  obtain ⟨kept, count⟩ := writeFile_kept stands sized bytes (by omega) wrote success
  have aligned : 2 ^ 31 % s.disk.clusterSize = 0 :=
    Nat.mod_eq_zero_of_dvd (appends.toWritable.divides.trans (by decide))
  have byte : r.disk.data s.file.currentCluster 0 = 1 := by
    rw [position, (offsetOf_large le_rfl (by decide) appends.toWritable.divides).1 aligned, writeFile_zero] at wrote
    obtain ⟨-, -, first, -⟩ := writeRest_frame stands sized bytes wrote success
    rw [first, List.getD_eq_getElem?_getD, List.getElem?_eq_getElem bytes, Option.getD_some]
    exact ones _ (List.getElem_mem bytes)
  have head : chain.head? = some node.startCluster.toNat := by
    rw [appends.holds.start, ← filling.startCluster]
    rfl
  exact ⟨_, Stuck.of_kept stands le_rfl stands.here head appends.isFile appends.writes appends.noAppend kept disk
    (start.trans filling.startCluster) flags file byte, count⟩

/-! ## The loop from there on -/

variable {γ : Type} {src : FileSystem γ} {blockSize : Nat} {at_ : γ → Nat → Prop} {srcFile : Description γ}

theorem piece_ones (ones : ∀ b ∈ content.drop (2 ^ 31), b = 1) (late : 2 ^ 31 ≤ 512 * k) : ∀ b ∈ Target.piece content k, b = 1 :=
  fun b member => ones b (List.drop_subset_drop_left _ late (List.mem_of_mem_take member))

theorem Stuck.copyLoop {size : Nat} (stuck : Stuck node size m x s) (sized : 512 ≤ size) (reads : Files.Reads src content blockSize at_)
    (here : Target.AtRound content blockSize at_ k srcFile) (late : 2 ^ 31 ≤ 512 * k) (ones : ∀ b ∈ content.drop (2 ^ 31), b = 1)
    (done : (fatTarget d fuel parent name scratch slot opened).copyLoop src given n k (content.length - 512 * k) srcFile s =
      some (.success, s')) : Stuck node size m x s' := by
  induction n generalizing k srcFile s with
  | zero =>
      rw [Target.copyLoop] at done
      split_ifs at done
      cases done
      exact stuck
  | succ n ih =>
      have small := reads.small
      by_cases more : 512 * k < content.length
      · obtain ⟨file', next, round⟩ := Target.copyLoop_round
          (fatTarget d fuel parent name scratch slot opened) given reads here more n
        have length := Target.length_piece content k
        rw [round] at done
        obtain ⟨⟨result, s₁⟩, wrote, done⟩ := Option.bind_eq_some_iff.mp done
        cases result with
        | error err => cases done
        | ok actual =>
            obtain ⟨stuck', rfl⟩ := stuck.write sized (by omega) (by omega) (piece_ones ones late) wrote
            dsimp only at done
            rw [Target.lessen_eq (by omega) (by omega), show content.length - 512 * k - (Target.piece content k).length =
              content.length - 512 * (k + 1) by omega] at done
            exact ih stuck' next (by omega) done
      · rw [Target.copyLoop, if_pos (by omega)] at done
        cases done
        exact stuck

theorem Stuck.not_holds {size : Nat} (stuck : Stuck node size m x s) (sized : 0 < size) (zero : content[m * size]? = some 0)
    (synced : (fatTarget d fuel parent name scratch slot opened).nodeSync s = some s') (first : Nat) :
    ¬ HoldsCopy s'.disk s'.node first content := by
  intro holds
  obtain ⟨bytes, done, -⟩ := s.disk.fat32UpdateEntry_spec s.node
  have result : (fatTarget d fuel parent name scratch slot opened).nodeSync s =
      some ⟨s.disk.setData s.node.parentCluster bytes, s.node, s.file⟩ := congrArg (Option.map _) done
  obtain rfl := Option.some.inj (result.symm.trans synced)
  obtain ⟨dir, all, rest, -, entered, copy, same⟩ := holds.file
  obtain ⟨chain, rest', j, stands, after, here, head⟩ := stuck.stands
  have seg := stands.links
  have seg' : Seg s.disk.fat.link all.head? all none := copy.partition.links all List.mem_cons_self
  have start : all.head? = some node.startCluster.toNat := by
    rw [copy.start, ← stuck.startCluster]
    rfl
  rw [start, ← head] at seg'
  obtain rfl := seg'.unique seg
  have apart : x ≠ s.node.parentCluster := by
    rintro rfl
    exact (List.nodup_append'.mp copy.partition.nodup).2.2 (List.mem_of_getElem? here) (List.mem_append_left _ entered.place)
  have clusterSize : (s.disk.setData s.node.parentCluster bytes).clusterSize = size := stuck.clusterSize
  rw [← same, getElem?_content] at zero
  split_ifs at zero with inside
  rw [Disk.byteAt, clusterSize, Nat.mul_div_cancel _ sized, Nat.mul_mod_left, List.getD_eq_getElem?_getD, here, Option.getD_some,
    data_setData_of_ne apart, stuck.byte] at zero
  exact absurd zero (by decide)

/-! ## `universal_copy` to a directory of a FAT32 volume -/

variable {name : Name} {srcSlot : Description γ}

theorem universalCopy_fat_iff (into : IntoDir d chain rest fuel name scratch) (reads : Files.Reads src content blockSize at_)
    (small : content.length ≤ 2 ^ 31)
    (room : 1 + d.growth chain name + content.length / d.clusterSize ≤ d.fat.available.length) :
    CopiesTo (chain.getD 0 0) content
      ((fatTarget d fuel (chain.getD 0 0) name scratch slot opened).universalCopy src srcSlot given) ↔ d.EntryFits chain name := by
  obtain ⟨s, s₁, d', node, dir, rest', created, open_, new, filling⟩ :=
    into.starts _ (fileOpenWrite ||| fileOpenCreate) room (by decide) (by decide) slot opened
  have takes : (fatTarget d fuel (chain.getD 0 0) name scratch slot opened).Takes given content content.length
      fun k s => Filling d' node (dir :: rest') _ s (content.take (512 * k)) := fatTarget_takes small (min_le_right ..)
  obtain ⟨k, s₂, whole, filled, done⟩ := takes.universalCopy reads (by omega) created open_ filling srcSlot
  rw [List.take_of_length_le whole] at filled
  obtain ⟨s₃, synced, right⟩ := filled.sync new into.head fuel scratch slot opened
  rw [done, synced, Option.map_some]
  constructor
  · rintro ⟨_, ⟨⟩, holds⟩
    exact ((right content).mp holds).1
  · exact fun fits => ⟨s₃, rfl, (right content).mpr ⟨fits, rfl⟩⟩

theorem universalCopy_fat_long (into : IntoDir d chain rest fuel name scratch) (reads : Files.Reads src content blockSize at_)
    (long : 2 ^ 31 < content.length) (zeros : ∀ i < 2 ^ 31, content[i]? = some 0) (ones : ∀ b ∈ content.drop (2 ^ 31), b = 1)
    (room : 1 + d.growth chain name + content.length / d.clusterSize ≤ d.fat.available.length) :
    ¬ CopiesTo (chain.getD 0 0) content
      ((fatTarget d fuel (chain.getD 0 0) name scratch slot opened).universalCopy src srcSlot given) := by
  obtain ⟨m, count⟩ : ∃ m, 512 * m = 2 ^ 31 := ⟨2 ^ 22, by decide⟩
  have more : 2 ^ 31 / d.clusterSize ≤ content.length / d.clusterSize := Nat.div_le_div_right long.le
  obtain ⟨s, s₁, d', node, dir, rest', created, open_, new, filling⟩ :=
    into.starts (2 ^ 31) (fileOpenWrite ||| fileOpenCreate) (by omega) (by decide) (by decide) slot opened
  have takes : (fatTarget d fuel (chain.getD 0 0) name scratch slot opened).Takes given content m
      fun k s => Filling d' node (dir :: rest') (2 ^ 31) s (content.take (512 * k)) := fatTarget_takes le_rfl (by omega)
  obtain ⟨file, s₂, here, filled, rounds⟩ := takes.copyLoop_rounds content.length reads (by omega) (Nat.zero_le _) (by omega)
    (Target.atRound_open reads srcSlot) filling
  obtain ⟨n, left⟩ := Nat.exists_eq_add_one.mpr (show 0 < content.length - (m - 0) by omega)
  obtain ⟨file', next, round⟩ := Target.copyLoop_round
    (fatTarget d fuel (chain.getD 0 0) name scratch slot opened) given reads here (by omega) n
  have width := Target.length_piece content m
  rw [left, round, Nat.mul_zero, Nat.sub_zero] at rounds
  rintro ⟨final, done, holds⟩
  simp only [Target.universalCopy, created, open_, Option.bind_eq_bind, Option.bind_some] at done
  rw [reads.size] at done
  rw [rounds] at done
  obtain ⟨⟨err, s₄⟩, ended, done⟩ := Option.bind_eq_some_iff.mp done
  obtain ⟨s₅, synced, done⟩ := Option.bind_eq_some_iff.mp done
  obtain ⟨rfl, last⟩ := Prod.mk.inj (Option.some.inj done)
  obtain rfl := Option.some.inj last
  obtain ⟨⟨result, s₃⟩, wrote, ended⟩ := Option.bind_eq_some_iff.mp ended
  cases result with
  | error err => cases ended
  | ok actual =>
      have small := reads.small
      have full : (content.take (512 * m)).length = 2 ^ 31 := by
        rw [List.length_take]
        omega
      obtain ⟨x, stuck, rfl⟩ := filled.sticks full (by omega) (by omega) (piece_ones ones count.ge) wrote
      obtain ⟨all, appends⟩ := filled.appends
      have sized := appends.sized
      have units : 512 ≤ s₂.disk.clusterSize := Nat.le_of_dvd sized (Nat.dvd_mul_left 512 _)
      have rest : Target.lessen (content.length - 512 * m) (Target.piece content m).length =
          content.length - 512 * (m + 1) := by
        rw [Target.lessen_eq (by omega) (by omega)]
        omega
      dsimp only at ended
      rw [rest] at ended
      have stuck' := stuck.copyLoop units reads next (by omega) ones ended
      have before : (2 ^ 31 - 1) / s₂.disk.clusterSize * s₂.disk.clusterSize < 2 ^ 31 := by
        have := Nat.div_mul_le_self (2 ^ 31 - 1) s₂.disk.clusterSize
        omega
      exact stuck'.not_holds sized (zeros _ before) synced _ holds

end Kerosene.Fat32
