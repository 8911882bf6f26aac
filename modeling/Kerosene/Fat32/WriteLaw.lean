import Kerosene.Fat32.WriteSteps

/-!
# What `file_write` leaves of a FAT32 file
-/

namespace Kerosene.Fat32
open Lib Ramfs

variable {d : Disk} {node : FatNode} {file : FatDescription} {chain chain' : List Nat} {rest : List (List Nat)}
  {buffer : List UInt8} {r : WriteResult} {current i j n offset fileSize nextPosition : Nat} {keep : Bool}

/-! ## One call of `write_file` -/

theorem writeFile_zero : d.writeFile current buffer 0 fileSize nextPosition =
    d.writeRest (nextPosition ≤ fileSize) current buffer 0 := by
  rw [Disk.writeFile, Nat.zero_div, Disk.advance]
  rfl

theorem writeFile_inside (positive : 0 < offset) (inside : offset < d.clusterSize) :
    d.writeFile current buffer offset fileSize nextPosition =
      if buffer.length ≤ d.clusterSize - offset then
        some ⟨.success, d.setData current (patch (d.data current) offset (buffer.take (d.clusterSize - offset))), current,
          buffer.length⟩
      else
        (d.setData current (patch (d.data current) offset (buffer.take (d.clusterSize - offset)))).writeRest
          (nextPosition ≤ fileSize) current (buffer.drop (d.clusterSize - offset)) (d.clusterSize - offset) := by
  rw [Disk.writeFile, Nat.div_eq_of_lt inside, Disk.advance]
  simp only [ne_eq, not_true, if_false, if_pos (show offset > 0 from positive)]

theorem advance_one (stands : Stands d chain rest j current) (sized : 0 < d.clusterSize)
    (enough : chain.length = j + 1 → 1 ≤ d.fat.available.length) :
    ∃ d' chain' current', d.advance 1 current d.clusterSize = some (.success, d', current', 0) ∧
      Stands d' chain' rest (j + 1) current' ∧ chain <+: chain' ∧ d'.data = d.data ∧
      d'.sectorsPerCluster = d.sectorsPerCluster ∧
      (chain.length = j + 1 ∧ chain'.length = j + 2 ∧ d.fat.available.length ≤ d'.fat.available.length + 1 ∨
        chain.length ≠ j + 1 ∧ chain' = chain ∧ d' = d) := by
  have one : d.clusterSize / d.clusterSize = 1 := Nat.div_self sized
  by_cases ends : d.fat.getFatEntry current ≥ fatEoc
  · have last := stands.last ends
    obtain ⟨taken, new, g, done, length, head, nonzero, grows⟩ :=
      Fat.expand_spec stands.volume (le_refl 1) (enough last) stands.used
    refine ⟨d.withFat g, chain ++ taken, new, ?_, ⟨grows.volume stands.volume, stands.grow last grows, ?_⟩,
      List.prefix_append _ _, rfl, rfl, .inl ⟨last, ?_, Fat.expand_available stands.volume (le_refl 1) stands.used done⟩⟩
    · simp only [Disk.advance, ge_iff_le, le_refl, if_true, if_pos (show fatEoc ≤ _ from ends), one, done, nonzero, if_false,
        Nat.mul_one, Nat.sub_self]
    · rw [← last, List.getElem?_append_right (le_refl _), Nat.sub_self, ← List.head?_eq_getElem?, head]
    · rw [List.length_append, last, length]
  · have next := stands.next ends
    refine ⟨d, chain, _, ?_, next, List.prefix_rfl, rfl, rfl, .inr ⟨?_, rfl, rfl⟩⟩
    · simp only [Disk.advance, ge_iff_le, le_refl, if_true, if_neg ends, if_neg stands.notBad, Nat.sub_self]
    · have := next.index
      omega

theorem writeFile_aligned {d' : Disk} {current' : Nat} (sized : 0 < d.clusterSize)
    (done : d.advance 1 current d.clusterSize = some (.success, d', current', 0)) :
    d.writeFile current buffer d.clusterSize fileSize nextPosition =
      d'.writeRest (nextPosition ≤ fileSize) current' buffer 0 := by
  rw [Disk.writeFile, Nat.div_self sized, done]
  rfl

theorem writeFile_frame (stands : Stands d chain rest j current) (sized : 0 < d.clusterSize) (bytes : 0 < buffer.length)
    (done : d.writeFile current buffer offset fileSize nextPosition = some r) (success : r.err = .success) :
    ∃ d₁ chain₁ j₁ current₁, Stands d₁ chain₁ rest j₁ current₁ ∧ chain <+: chain₁ ∧ j ≤ j₁ ∧
      (d.clusterSize ≤ offset → j < j₁) ∧ r.disk.sectorsPerCluster = d.sectorsPerCluster ∧
      ∀ c ∈ chain₁.take j₁, r.disk.fat.entry c = d₁.fat.entry c ∧ r.disk.data c = d.data c := by
  rw [Disk.writeFile] at done
  cases advanced : d.advance (offset / d.clusterSize) current offset with
  | none =>
      rw [advanced] at done
      cases done
  | some result =>
      obtain ⟨err, d₁, current₁, offset₁⟩ := result
      rw [advanced] at done
      dsimp only at done
      by_cases failed : err = .success
      · subst failed
        obtain ⟨chain₁, j₁, stands₁, grown, later, strictly, data, sectors⟩ := advance_spec stands sized advanced
        have sized₁ : 0 < d₁.clusterSize := by rwa [Disk.clusterSize, sectors]
        refine ⟨d₁, chain₁, j₁, current₁, stands₁, grown, later,
          fun far => strictly (Nat.div_pos far sized) far, ?_⟩
        rw [if_neg (not_not.mpr rfl)] at done
        by_cases positive : offset₁ > 0
        · rw [if_pos positive] at done
          have others : ∀ c ∈ chain₁.take j₁, ∀ bytes, (d₁.setData current₁ bytes).data c = d.data c := by
            intro c before bytes
            rw [data_setData_of_ne ?_ d₁ bytes, data]
            rintro rfl
            exact stands₁.outside before List.mem_cons_self
          by_cases all : buffer.length ≤ d₁.clusterSize - offset₁
          · rw [if_pos all] at done
            cases done
            exact ⟨sectors, fun c before => ⟨rfl, others c before _⟩⟩
          · rw [if_neg all] at done
            obtain ⟨sectors', kept, -, -⟩ := writeRest_frame (d := d₁.setData current₁ _)
              ⟨stands₁.volume, stands₁.partition, stands₁.here⟩ sized₁ (by rw [List.length_drop]; omega) done success
            exact ⟨sectors'.trans sectors, fun c before => ⟨(kept c before).1, (kept c before).2.trans (others c before _)⟩⟩
        · rw [if_neg positive] at done
          obtain ⟨sectors', kept, -, -⟩ := writeRest_frame stands₁ sized₁ bytes done success
          exact ⟨sectors'.trans sectors, fun c before => ⟨(kept c before).1, by rw [(kept c before).2, data]⟩⟩
      · rw [if_pos failed] at done
        cases done
        exact absurd success failed

/-! ## One call of `file_write` -/

/-- A file of the volume and a descriptor that stands at the cluster of the byte before its position. -/
structure Writable (d : Disk) (node : FatNode) (file : FatDescription) (chain : List Nat) (rest : List (List Nat)) :
    Prop where
  geometry : d.sectorsPerCluster ∣ 128
  volume : d.fat.Volume
  holds : Holds d node chain rest
  size : node.size < 2 ^ 32
  isFile : node.isFile = true
  writes : file.mode.has fileOpenWrite = true
  noAppend : file.mode.has fileOpenAppend = false
  inside : file.position ≤ node.size
  current : chain[(file.position - 1) / d.clusterSize]? = some file.currentCluster

def finish (node : FatNode) (file : FatDescription) (r : WriteResult) : FileResult :=
  if r.err ≠ .success then ⟨r.err, r.disk, node, { file with currentCluster := r.current }⟩
  else
    ⟨.success, r.disk,
      { node with size := if file.position + r.actualWriteSize > node.size then (file.position + r.actualWriteSize) % 2 ^ 32
                          else node.size },
      { file with currentCluster := r.current, position := file.position + r.actualWriteSize }⟩

namespace Writable
variable (writable : Writable d node file chain rest)
include writable

theorem divides : d.clusterSize ∣ 2 ^ 16 := by
  have := Nat.mul_dvd_mul_right writable.geometry 512
  exact this

theorem sized : 0 < d.clusterSize := Nat.pos_of_dvd_of_pos writable.divides (by decide)

theorem bounded : d.clusterSize ≤ 2 ^ 16 := Nat.le_of_dvd (by decide) writable.divides

theorem stands : Stands d chain rest ((file.position - 1) / d.clusterSize) file.currentCluster :=
  ⟨writable.volume, writable.holds.partition, writable.current⟩

theorem fileWrite_eq (buffer : List UInt8) :
    d.fileWrite node file buffer = (d.writeFile file.currentCluster buffer (offsetOf file.position d.clusterSize) node.size
      (toUnsigned (toInt file.position + buffer.length))).map (finish node file) := by
  rw [Disk.fileWrite, if_neg (by rw [writable.writes]; simp), if_neg (by rw [writable.isFile]; simp), Disk.fat32FileWrite,
    if_neg (by rw [writable.noAppend]; simp), Option.map_map]
  refine congrArg (fun f => Option.map f _) (funext fun r => ?_)
  simp only [Function.comp_apply, finish, writable.noAppend, Bool.false_eq_true, if_false]

end Writable

theorem getElem?_content (d : Disk) (chain : List Nat) (size i : Nat) :
    (d.content chain size)[i]? = if i < size then some (d.byteAt chain i) else none := by
  rw [Disk.content, List.getElem?_map]
  split_ifs with inside
  · rw [List.getElem?_range inside, Option.map_some]
  · rw [List.getElem?_eq_none (by rw [List.length_range]; omega), Option.map_none]

theorem length_content (d : Disk) (chain : List Nat) (size : Nat) : (d.content chain size).length = size := by
  rw [Disk.content, List.length_map, List.length_range]

theorem Writable.written (writable : Writable d node file chain rest) (success : r.err = .success)
    (actual : r.actualWriteSize = buffer.length) (sectors : r.disk.sectorsPerCluster = d.sectorsPerCluster)
    (grown : chain <+: chain') (partition : r.disk.fat.Partition (chain' :: rest))
    (room : file.position + buffer.length ≤ chain'.length * d.clusterSize)
    (fits : file.position + buffer.length < 2 ^ 32)
    (bytes : ∀ i, i < node.size ∨ i < file.position + buffer.length → r.disk.byteAt chain' i =
      if file.position ≤ i ∧ i < file.position + buffer.length then buffer.getD (i - file.position) 0
      else d.byteAt chain i)
    (others : ∀ l ∈ rest, ∀ c ∈ l, r.disk.data c = d.data c) :
    Written d node chain rest file.position buffer (finish node file r) := by
  have sameSize : r.disk.clusterSize = d.clusterSize := by rw [Disk.clusterSize, sectors, Disk.clusterSize]
  have covers := writable.holds.covers
  have longer : chain.length * d.clusterSize ≤ chain'.length * d.clusterSize :=
    Nat.mul_le_mul_right _ grown.length_le
  have inside := writable.inside
  have newSize : (finish node file r).node.size = max node.size (file.position + buffer.length) := by
    rw [finish, if_neg (not_not.mpr success), actual]
    dsimp only
    split_ifs with grows
    · rw [Nat.mod_eq_of_lt fits]
      omega
    · omega
  have disk : (finish node file r).disk = r.disk := by
    rw [finish, if_neg (not_not.mpr success)]
  have start : (finish node file r).node.startCluster = node.startCluster := by
    rw [finish, if_neg (not_not.mpr success)]
  have head : chain'.head? = some node.startCluster := by
    obtain ⟨tail, rfl⟩ := grown
    rw [List.head?_append, writable.holds.start]
    rfl
  refine ⟨by rw [finish, if_neg (not_not.mpr success)], ⟨chain', ⟨?_, ?_, ?_⟩, start, ?_⟩, fun l listed c member => ?_⟩
  · rw [disk]
    exact partition
  · rw [start, head]
  · rw [newSize, disk, sameSize]
    omega
  · rw [newSize, disk]
    apply List.ext_getElem?
    intro i
    rw [getElem?_splice_eq (by rw [length_content]; exact inside), getElem?_content, getElem?_content]
    by_cases here : file.position ≤ i ∧ i < file.position + buffer.length
    · rw [if_pos (by omega), if_pos here, bytes i (.inr here.2), if_pos here, List.getD_eq_getElem?_getD]
      rw [List.getElem?_eq_getElem (by omega), Option.getD_some]
    · rw [if_neg here]
      by_cases old : i < node.size
      · rw [if_pos (by omega), if_pos old, bytes i (.inl old), if_neg here]
      · rw [if_neg (by omega), if_neg old]
  · rw [disk]
    exact others l listed c member

/-! ## Writes that fit -/

section Index
variable {position size : Nat}

theorem pred_div_inside (sized : 0 < size) (within : position % size ≠ 0) : (position - 1) / size = position / size := by
  have split := Nat.div_add_mod position size
  have less := Nat.mod_lt position sized
  obtain ⟨k, rest⟩ : ∃ k, position % size = k + 1 := ⟨position % size - 1, by omega⟩
  rw [show position - 1 = k + size * (position / size) by omega, Nat.add_mul_div_left _ _ sized,
    Nat.div_eq_of_lt (by omega), Nat.zero_add]

theorem pred_div_aligned (sized : 0 < size) (aligned : position % size = 0) (positive : 0 < position) :
    (position - 1) / size + 1 = position / size := by
  obtain ⟨k, times⟩ := Nat.dvd_of_mod_eq_zero aligned
  cases k with
  | zero => omega
  | succ k =>
      rw [times, Nat.mul_div_cancel_left _ sized, Nat.mul_succ,
        show size * k + size - 1 = (size - 1) + size * k by omega, Nat.add_mul_div_left _ _ sized,
        Nat.div_eq_of_lt (by omega), Nat.zero_add]

end Index

theorem getD_grown (grown : chain <+: chain') (inside : i < chain.length) : chain'.getD i 0 = chain.getD i 0 := by
  obtain ⟨tail, rfl⟩ := grown
  rw [List.getD_eq_getElem?_getD, List.getElem?_append_left inside, ← List.getD_eq_getElem?_getD]

theorem div_lt_of_lt_mul {a b m : Nat} (below : a < m * b) : a / b < m := Nat.div_lt_of_lt_mul (by rwa [Nat.mul_comm])

theorem Writable.filled (writable : Writable d node file chain rest) (aligned : file.position % d.clusterSize = 0)
    (fits : file.position + buffer.length < 2 ^ 32) {d₁ : Disk} {chain₁ : List Nat} (grown : chain <+: chain₁)
    (data : d₁.data = d.data) (sectors : d₁.sectorsPerCluster = d.sectorsPerCluster)
    (filled : Filled keep d₁ chain₁ rest (file.position / d.clusterSize) buffer 0 r chain')
    (keeps : file.position + buffer.length ≤ node.size → keep = true) (bytes : 0 < buffer.length) :
    Written d node chain rest file.position buffer (finish node file r) := by
  have sized := writable.sized
  have sameSize : d₁.clusterSize = d.clusterSize := by rw [Disk.clusterSize, sectors, Disk.clusterSize]
  have sameSize' : r.disk.clusterSize = d.clusterSize := by
    rw [Disk.clusterSize, filled.sectors, sectors, Disk.clusterSize]
  have longer := grown.trans filled.grown
  have nodup : chain'.Nodup := (filled.partition.links _ List.mem_cons_self).nodup
  have covers := writable.holds.covers
  have inside := writable.inside
  have start : d.clusterSize * (file.position / d.clusterSize) = file.position := by
    have := Nat.div_add_mod file.position d.clusterSize
    omega
  have room := filled.room
  rw [sameSize, Nat.sub_mul, Nat.mul_comm (file.position / d.clusterSize), start] at room
  have whole : file.position + buffer.length ≤ chain'.length * d.clusterSize := by omega
  refine writable.written filled.success (filled.size.trans (Nat.zero_add _)) (filled.sectors.trans sectors) longer
    filled.partition whole fits (fun i below => ?_) fun l listed c member => ?_
  · have split := Nat.div_add_mod i d.clusterSize
    have less := Nat.mod_lt i sized
    have reach : i / d.clusterSize < chain'.length := by
      have := Nat.mul_le_mul_right d.clusterSize longer.length_le
      exact div_lt_of_lt_mul (by omega)
    have here : chain'[i / d.clusterSize]? = some (chain'.getD (i / d.clusterSize) 0) := by
      rw [List.getD_eq_getElem?_getD, List.getElem?_eq_getElem reach, Option.getD_some]
    rw [Disk.byteAt, sameSize']
    by_cases before : i < file.position
    · -- a cluster in front of the write
      rw [if_neg (by omega), Disk.byteAt, ← data, getD_grown longer (div_lt_of_lt_mul (by omega))]
      rw [getD_grown longer (div_lt_of_lt_mul (by omega))] at here
      refine congrFun (filled.frame _ fun later => ?_) _
      have earlier : chain.getD (i / d.clusterSize) 0 ∈ chain'.take (file.position / d.clusterSize) := by
        refine List.mem_of_getElem? (i := i / d.clusterSize) ?_
        rw [List.getElem?_take_of_lt ?_]
        · exact here
        · refine Nat.div_lt_of_lt_mul ?_
          rw [start]
          exact before
      exact List.disjoint_take_drop nodup (le_refl _) earlier later
    · obtain ⟨k, index⟩ : ∃ k, i / d.clusterSize = file.position / d.clusterSize + k :=
        ⟨_, (Nat.add_sub_of_le (Nat.div_le_div_right (not_lt.mp before))).symm⟩
      have dropped : (chain'.drop (file.position / d.clusterSize))[k]? = some (chain'.getD (i / d.clusterSize) 0) := by
        rw [List.getElem?_drop, ← index, here]
      have distance : k * d.clusterSize + i % d.clusterSize = i - file.position := by
        rw [index, Nat.mul_add, start] at split
        rw [Nat.mul_comm]
        omega
      by_cases within : i < file.position + buffer.length
      · rw [if_pos ⟨by omega, within⟩, filled.stored.new k _ _ dropped (by omega) (by rw [sameSize]; omega), sameSize, distance]
      · rw [if_neg (by omega), filled.stored.old (keeps (by omega)) k _ _ dropped (by omega) (by rw [sameSize]; omega),
          data, Disk.byteAt, getD_grown longer (div_lt_of_lt_mul (by omega))]
  · rw [filled.frame c fun later => ?_, data]
    have apart := (List.nodup_append'.mp filled.partition.nodup).2.2
    exact apart (List.mem_of_mem_drop later) (List.mem_flatten_of_mem listed member)

theorem Writable.patched (writable : Writable d node file chain rest) (within : file.position % d.clusterSize ≠ 0)
    (fits : file.position + buffer.length < 2 ^ 32)
    (short : file.position % d.clusterSize + buffer.length ≤ d.clusterSize) (bytes : 0 < buffer.length) :
    Written d node chain rest file.position buffer (finish node file ⟨.success, d.setData file.currentCluster
      (patch (d.data file.currentCluster) (file.position % d.clusterSize)
        (buffer.take (d.clusterSize - file.position % d.clusterSize))), file.currentCluster, buffer.length⟩) := by
  have sized := writable.sized
  have start := Nat.div_add_mod file.position d.clusterSize
  have stands := writable.stands
  rw [pred_div_inside sized within] at stands
  have nodup := stands.links.nodup
  have covers := writable.holds.covers
  have inside := writable.inside
  have room : file.position + buffer.length ≤ chain.length * d.clusterSize := by
    have := Nat.mul_le_mul_right d.clusterSize (Nat.succ_le_of_lt stands.index)
    rw [Nat.succ_mul, Nat.mul_comm] at this
    omega
  rw [List.take_of_length_le (by omega)]
  refine writable.written rfl rfl rfl List.prefix_rfl writable.holds.partition room fits (fun i below => ?_)
    fun l listed c member => ?_
  · have split := Nat.div_add_mod i d.clusterSize
    have less := Nat.mod_lt i sized
    have reach : i / d.clusterSize < chain.length := div_lt_of_lt_mul (by omega)
    rw [Disk.byteAt, clusterSize_setData, Disk.byteAt]
    by_cases same : i / d.clusterSize = file.position / d.clusterSize
    · have here : chain.getD (i / d.clusterSize) 0 = file.currentCluster := by
        rw [same, List.getD_eq_getElem?_getD, stands.here, Option.getD_some]
      rw [here, data_setData]
      rw [same] at split
      by_cases inPatch : file.position ≤ i ∧ i < file.position + buffer.length
      · rw [patch_inside (by omega) (by omega), if_pos inPatch]
        congr 1
        omega
      · rw [patch_outside (by omega), if_neg inPatch]
    · have other : chain.getD (i / d.clusterSize) 0 ≠ file.currentCluster := by
        intro equal
        have first : chain[i / d.clusterSize]? = some file.currentCluster := by
          rw [← equal, List.getD_eq_getElem?_getD, List.getElem?_eq_getElem reach, Option.getD_some]
        exact same ((List.getElem?_inj reach nodup).mp (first.trans stands.here.symm))
      rw [data_setData_of_ne other, if_neg]
      rintro ⟨low, high⟩
      have lower : file.position / d.clusterSize ≤ i / d.clusterSize := Nat.div_le_div_right low
      have upper : i / d.clusterSize < file.position / d.clusterSize + 1 := by
        refine Nat.div_lt_of_lt_mul ?_
        rw [Nat.mul_add]
        omega
      omega
  · refine data_setData_of_ne ?_ d _
    rintro rfl
    exact (List.nodup_append'.mp writable.holds.partition.nodup).2.2 stands.member (List.mem_flatten_of_mem listed member)

/-- The clusters a write at `position` asks for: one when it starts behind the chain, and one for each
whole cluster of the buffer. -/
def clustersAsked (chain : List Nat) (clusterSize position n : Nat) : Nat :=
  if position % clusterSize = 0 then (if 0 < position ∧ position / clusterSize = chain.length then 1 else 0) + n / clusterSize
  else 0

/-- The write ends in the cluster in which it starts, or starts at the beginning of the last cluster or
behind it; and no number on the way is too large for its type. -/
def WriteFits (chain : List Nat) (clusterSize position n : Nat) : Prop :=
  position < 2 ^ 31 ∧ position + n < 2 ^ 32 ∧
    (position % clusterSize ≠ 0 ∧ position % clusterSize + n ≤ clusterSize ∨
      position % clusterSize = 0 ∧ (n < clusterSize ∨ chain.length ≤ position / clusterSize + 1))

theorem nextPosition_eq {position : Nat} (small : position < 2 ^ 31) (fits : position + n < 2 ^ 32) :
    toUnsigned (toInt position + n) = position + n := by
  rw [toInt_small small, toUnsigned]
  omega

/-- The clusters that the step to the next byte takes. -/
def stepAsked (chain : List Nat) (clusterSize position : Nat) : Nat :=
  if 0 < position ∧ position / clusterSize = chain.length then 1 else 0

theorem Writable.starts (writable : Writable d node file chain rest) (small : file.position < 2 ^ 31)
    (aligned : file.position % d.clusterSize = 0)
    (enough : stepAsked chain d.clusterSize file.position + n ≤ d.fat.available.length) :
    ∃ d₁ chain₁ current₁,
      (∀ buffer fileSize nextPosition, d.writeFile file.currentCluster buffer (offsetOf file.position d.clusterSize) fileSize
        nextPosition = d₁.writeRest (nextPosition ≤ fileSize) current₁ buffer 0) ∧
      Stands d₁ chain₁ rest (file.position / d.clusterSize) current₁ ∧ chain <+: chain₁ ∧ d₁.data = d.data ∧
      d₁.sectorsPerCluster = d.sectorsPerCluster ∧ n ≤ d₁.fat.available.length ∧
      chain₁.length = chain.length + stepAsked chain d.clusterSize file.position ∧
      d.fat.available.length ≤ d₁.fat.available.length + stepAsked chain d.clusterSize file.position := by
  have sized := writable.sized
  have stands := writable.stands
  rcases Nat.eq_zero_or_pos file.position with zero | positive
  · have none : stepAsked chain d.clusterSize file.position = 0 := if_neg (by omega)
    rw [none] at enough ⊢
    rw [zero, Nat.zero_sub] at stands
    rw [zero, offsetOf_zero]
    exact ⟨d, chain, _, fun buffer fileSize nextPosition => writeFile_zero, stands, List.prefix_rfl, rfl, rfl, by omega, rfl, le_rfl⟩
  · have index := pred_div_aligned sized aligned positive
    obtain ⟨d₁, chain₁, current₁, advanced, stands₁, grown, data, sectors, cases⟩ :=
      advance_one stands sized fun last => by
        rw [stepAsked, if_pos ⟨positive, by omega⟩] at enough
        omega
    have bounded := writable.bounded
    rw [index] at stands₁ cases
    rw [offsetOf_aligned small aligned positive (by omega)]
    refine ⟨d₁, chain₁, current₁, fun buffer fileSize nextPosition => writeFile_aligned sized advanced, stands₁, grown, data, sectors, ?_⟩
    have inside := stands.index
    rcases cases with ⟨last, length, left⟩ | ⟨notLast, rfl, rfl⟩
    · have one : stepAsked chain d.clusterSize file.position = 1 := if_pos ⟨positive, by omega⟩
      rw [one] at enough ⊢
      omega
    · have none : stepAsked chain₁ d₁.clusterSize file.position = 0 := if_neg (by omega)
      rw [none] at enough ⊢
      omega

theorem clustersAsked_aligned {position clusterSize : Nat} (aligned : position % clusterSize = 0) (chain : List Nat) (n : Nat) :
    clustersAsked chain clusterSize position n = stepAsked chain clusterSize position + n / clusterSize := if_pos aligned

theorem Writable.fits_written (writable : Writable d node file chain rest) (bytes : 0 < buffer.length)
    (enough : clustersAsked chain d.clusterSize file.position buffer.length ≤ d.fat.available.length)
    (fits : WriteFits chain d.clusterSize file.position buffer.length) :
    ∃ r, d.fileWrite node file buffer = some r ∧ Written d node chain rest file.position buffer r := by
  obtain ⟨small, total, ⟨within, short⟩ | ⟨aligned, either⟩⟩ := fits
  · have less := Nat.mod_lt file.position writable.sized
    refine ⟨_, ?_, writable.patched within total short bytes⟩
    rw [writable.fileWrite_eq, offsetOf_inside small within, writeFile_inside (Nat.pos_of_ne_zero within) less,
      if_pos (by omega), Option.map_some]
  · have sized := writable.sized
    rw [clustersAsked_aligned aligned] at enough
    obtain ⟨d₁, chain₁, current₁, equal, stands₁, grown, data, sectors, left, length, -⟩ := writable.starts small aligned enough
    have ends : chain.length ≤ file.position / d.clusterSize + 1 → chain₁.length = file.position / d.clusterSize + 1 := by
      intro short
      have inside := stands₁.index
      rw [stepAsked] at length
      split_ifs at length <;> omega
    have sized₁ : 0 < d₁.clusterSize := by rwa [Disk.clusterSize, sectors]
    have sameSize : d₁.clusterSize = d.clusterSize := by rw [Disk.clusterSize, sectors, Disk.clusterSize]
    have keeps : file.position + buffer.length ≤ node.size →
        decide (file.position + buffer.length ≤ node.size) = true := fun h => decide_eq_true h
    rw [writable.fileWrite_eq, nextPosition_eq small total, equal]
    by_cases short : buffer.length < d.clusterSize
    · obtain ⟨r, done, filled⟩ := writeRest_short
        stands₁ sized₁ bytes (by rw [sameSize]; exact short)
      exact ⟨_, by rw [done, Option.map_some], writable.filled aligned total grown data sectors filled keeps bytes⟩
    · obtain ⟨r, chain', done, filled⟩ := writeRest_last
        (b := buffer) stands₁ sized₁ (by omega) (ends (either.resolve_left short)) (by rw [sameSize]; exact left)
      exact ⟨_, by rw [done, Option.map_some], writable.filled aligned total grown data sectors filled keeps bytes⟩

/-! ## Writes that do not fit -/

theorem finish_success (success : (finish node file r).err = .success) :
    r.err = .success ∧ (finish node file r).disk = r.disk := by
  by_cases failed : r.err = .success
  · exact ⟨failed, by rw [finish, if_neg (not_not.mpr failed)]⟩
  · rw [finish, if_pos failed] at success
    exact absurd success failed

theorem finish_size {f : FatDescription} (size : node.size < 2 ^ 32) : (finish node f r).node.size < 2 ^ 32 := by
  by_cases failed : r.err = .success
  · rw [finish, if_neg (not_not.mpr failed)]
    dsimp only
    split_ifs
    · exact Nat.mod_lt _ (Nat.two_pow_pos 32)
    · exact size
  · rw [finish, if_pos failed]
    exact size

theorem Written.byteAt {position : Nat} {r : FileResult} (written : Written d node chain rest position buffer r)
    (inside : position ≤ node.size) :
    ∃ chain', r.disk.fat.Partition (chain' :: rest) ∧ chain'.head? = some node.startCluster ∧
      ∀ i, i < node.size ∨ i < position + buffer.length → r.disk.byteAt chain' i =
        if position ≤ i ∧ i < position + buffer.length then buffer.getD (i - position) 0 else d.byteAt chain i := by
  obtain ⟨chain', holds, start, same⟩ := written.file
  refine ⟨chain', holds.partition, by rw [holds.start, start], fun i below => ?_⟩
  have here := congrArg (·[i]?) same
  simp only [getElem?_splice_eq (show position ≤ (d.content chain node.size).length by rwa [length_content]),
    getElem?_content] at here
  by_cases new : position ≤ i ∧ i < position + buffer.length
  · rw [if_pos new, List.getElem?_eq_getElem (by omega)] at here
    rw [if_pos new, List.getD_eq_getElem?_getD, List.getElem?_eq_getElem (by omega), Option.getD_some]
    split_ifs at here with old
    exact Option.some.inj here
  · rw [if_neg new, if_pos (show i < node.size by omega)] at here
    rw [if_neg new]
    split_ifs at here with old
    exact Option.some.inj here

theorem seg_of_partition {f : Fat} (partition : f.Partition (chain :: rest)) : Seg f.link chain.head? chain none :=
  partition.links _ List.mem_cons_self

/-- Blank clusters, and ones to write. -/
def blank (fat : Fat) (sectorsPerCluster : Nat) : Disk := ⟨fat, sectorsPerCluster, fun _ _ => 0⟩

section Blank
variable {fat : Fat} {sectorsPerCluster : Nat} (writable : Writable (blank fat sectorsPerCluster) node file chain rest)
  (bytes : 0 < n)
  (done : (blank fat sectorsPerCluster).writeFile file.currentCluster (List.replicate n 1)
    (offsetOf file.position (blank fat sectorsPerCluster).clusterSize) node.size nextPosition = some r)
  (written : Written (blank fat sectorsPerCluster) node chain rest file.position (List.replicate n 1) (finish node file r))
include writable bytes done written

theorem Writable.chain_before : ∃ chain', r.disk.fat.Partition (chain' :: rest) ∧
    chain'[(file.position - 1) / (blank fat sectorsPerCluster).clusterSize]? = some file.currentCluster ∧
    (∀ i, i < node.size ∨ i < file.position + n → r.disk.byteAt chain' i =
      if file.position ≤ i ∧ i < file.position + n then 1 else 0) ∧
    r.disk.clusterSize = (blank fat sectorsPerCluster).clusterSize ∧
    ((blank fat sectorsPerCluster).clusterSize ≤ offsetOf file.position (blank fat sectorsPerCluster).clusterSize →
      ∀ off, r.disk.data file.currentCluster off = 0) := by
  obtain ⟨success, disk⟩ := finish_success written.success
  obtain ⟨d₁, chain₁, j₁, current₁, stands₁, grown, later, strictly, sectors, kept⟩ :=
    writeFile_frame writable.stands writable.sized (by rwa [List.length_replicate]) done success
  obtain ⟨chain', partition, head, byte⟩ := written.byteAt writable.inside
  rw [disk] at partition byte
  have index := writable.stands.index
  have same₁ : chain₁[(file.position - 1) / (blank fat sectorsPerCluster).clusterSize]? = some file.currentCluster := by
    obtain ⟨tail, rfl⟩ := grown
    rw [List.getElem?_append_left index, writable.current]
  have heads : chain₁.head? = chain'.head? := by
    obtain ⟨tail, rfl⟩ := grown
    rw [List.head?_append, writable.holds.start, head]
    rfl
  have seg' := seg_of_partition partition
  rw [← heads] at seg'
  refine ⟨chain', partition, ?_, fun i below => ?_, by rw [Disk.clusterSize, sectors, Disk.clusterSize], fun far off => ?_⟩
  · rw [stands₁.links.getElem?_congr seg' fun c member => Fat.link_congr (kept c ?_).1, same₁]
    exact (List.take_subset_take_left _ later) member
  · rw [byte i (by rwa [List.length_replicate]), List.length_replicate]
    by_cases new : file.position ≤ i ∧ i < file.position + n
    · rw [if_pos new, if_pos new, List.getD_eq_getElem?_getD, List.getElem?_replicate_of_lt (by omega), Option.getD_some]
    · rw [if_neg new, if_neg new]
      rfl
  · have before : file.currentCluster ∈ chain₁.take j₁ := by
      refine List.mem_of_getElem? (i := (file.position - 1) / (blank fat sectorsPerCluster).clusterSize) ?_
      rw [List.getElem?_take_of_lt (strictly far), same₁]
    rw [(kept _ before).2]
    rfl

theorem Writable.early (first : r.disk.data file.currentCluster 0 = 1) (positive : 0 < file.position) : False := by
  obtain ⟨chain', -, here, byte, size, -⟩ := writable.chain_before bytes done written
  have sized := writable.sized
  have before : (file.position - 1) / (blank fat sectorsPerCluster).clusterSize *
      (blank fat sectorsPerCluster).clusterSize < file.position := by
    have := Nat.div_mul_le_self (file.position - 1) (blank fat sectorsPerCluster).clusterSize
    omega
  have inside := writable.inside
  have value := byte _ (.inl (before.trans_le inside))
  rw [if_neg (by omega), Disk.byteAt, size, Nat.mul_div_cancel _ sized, Nat.mul_mod_left, List.getD_eq_getElem?_getD, here,
    Option.getD_some, first] at value
  exact absurd value (by decide)

theorem Writable.late (within : file.position % (blank fat sectorsPerCluster).clusterSize ≠ 0)
    (far : (blank fat sectorsPerCluster).clusterSize ≤ offsetOf file.position (blank fat sectorsPerCluster).clusterSize) :
    False := by
  obtain ⟨chain', -, here, byte, size, zero⟩ := writable.chain_before bytes done written
  have value := byte file.position (.inr (by omega))
  rw [pred_div_inside writable.sized within] at here
  rw [if_pos ⟨le_refl _, by omega⟩, Disk.byteAt, size, List.getD_eq_getElem?_getD, here, Option.getD_some, zero far] at value
  exact absurd value (by decide)

end Blank

theorem Stands.lost (stands : Stands d chain rest j current) (later : j + 1 < chain.length) {g : Fat} {taken : List Nat}
    (grows : d.fat.Grows g current taken) (head : chain'.head? = chain.head?) :
    ¬ g.Partition (chain' :: rest) := by
  intro partition
  obtain ⟨c, next⟩ : ∃ c, chain[j + 1]? = some c := ⟨_, List.getElem?_eq_getElem later⟩
  have split := stands.split
  have nodup := stands.links.nodup
  have member : c ∈ chain.drop (j + 1) := by
    refine List.mem_of_getElem? (i := 0) ?_
    rw [List.getElem?_drop, Nat.add_zero, next]
  have inChain : c ∈ chain := List.mem_of_mem_drop member
  -- the chain as it is now: up to the cluster, then the new clusters
  have now : Seg g.link chain.head? (chain.take j ++ current :: taken) none := by
    have whole := stands.links
    rw [split] at whole
    obtain ⟨middle, left, here⟩ := seg_append.mp whole
    rw [← split] at left
    refine seg_append.mpr ⟨middle, left.congr fun a before => Fat.link_congr (grows.same a ?_ ?_), ?_⟩
    · rintro rfl
      exact stands.outside before List.mem_cons_self
    · exact fun took => (stands.inUse (List.mem_of_mem_take before)).notFree' (grows.free a took)
    · rw [here.1]
      exact grows.links
  have seg := seg_of_partition partition
  rw [head] at seg
  have chains : chain' = chain.take j ++ current :: taken := seg.unique now
  have used : g.InUse c := grows.notFree (stands.inUse inChain) stands.used
  rcases List.mem_append.mp ((partition.covers c).mpr used) with own | other
  · rw [chains, List.mem_append, List.mem_cons] at own
    rcases own with before | rfl | took
    · exact List.disjoint_take_drop nodup (Nat.le_succ j) before member
    · rw [split] at nodup
      exact (List.nodup_cons.mp (List.nodup_append'.mp nodup).2.1).1 member
    · exact (stands.inUse inChain).notFree' (grows.free c took)
  · exact (List.nodup_append'.mp stands.partition.nodup).2.2 inChain other

theorem Writable.not_written {fat : Fat} {sectorsPerCluster : Nat}
    (writable : Writable (blank fat sectorsPerCluster) node file chain rest) (bytes : 0 < n)
    (unfit : ¬ WriteFits chain (blank fat sectorsPerCluster).clusterSize file.position n) {r : FileResult}
    (call : (blank fat sectorsPerCluster).fileWrite node file (List.replicate n 1) = some r) :
    ¬ Written (blank fat sectorsPerCluster) node chain rest file.position (List.replicate n 1) r := by
  intro written
  have inside := writable.inside
  have size := writable.size
  have sized := writable.sized
  rw [writable.fileWrite_eq] at call
  obtain ⟨r, done, rfl⟩ := Option.map_eq_some_iff.mp call
  have success := (finish_success written.success).1
  have ones : ∀ k, k < n → (List.replicate n (1 : UInt8)).getD k 0 = 1 := fun k below => by
    rw [List.getD_eq_getElem?_getD, List.getElem?_replicate_of_lt below, Option.getD_some]
  -- `node->size` has 32 bits
  have total : file.position + n < 2 ^ 32 := by
    obtain ⟨chain', -, -, same⟩ := written.file
    have length := congrArg List.length same
    rw [length_content, length_splice (by rwa [length_content]), length_content, List.length_replicate] at length
    have := finish_size (f := file) (r := r) size
    omega
  by_cases small : file.position < 2 ^ 31
  · by_cases aligned : file.position % (blank fat sectorsPerCluster).clusterSize = 0
    · -- the write is longer than a cluster, and the chain goes on
      have long : (blank fat sectorsPerCluster).clusterSize ≤ n :=
        not_lt.mp fun short => unfit ⟨small, total, .inr ⟨aligned, .inl short⟩⟩
      have later : file.position / (blank fat sectorsPerCluster).clusterSize + 1 < chain.length :=
        not_le.mp fun short => unfit ⟨small, total, .inr ⟨aligned, .inr short⟩⟩
      obtain ⟨current, stands, rest'⟩ : ∃ current, Stands (blank fat sectorsPerCluster) chain rest
          (file.position / (blank fat sectorsPerCluster).clusterSize) current ∧
          ∃ keep, (blank fat sectorsPerCluster).writeRest keep current (List.replicate n 1) 0 = some r := by
        have stands := writable.stands
        rcases Nat.eq_zero_or_pos file.position with zero | positive
        · rw [zero, Nat.zero_sub] at stands
          rw [zero, offsetOf_zero, writeFile_zero] at done
          rw [zero]
          exact ⟨_, stands, _, done⟩
        · have index := pred_div_aligned sized aligned positive
          obtain ⟨d₁, chain₁, current₁, advanced, stands₁, -, -, -, cases⟩ :=
            advance_one stands sized fun last => by omega
          have bounded := writable.bounded
          rw [offsetOf_aligned small aligned positive (by omega), writeFile_aligned sized advanced] at done
          rw [index] at stands₁ cases
          obtain ⟨last, -⟩ | ⟨-, rfl, rfl⟩ := cases
          · omega
          · exact ⟨_, stands₁, _, done⟩
      obtain ⟨keep, rest'⟩ := rest'
      obtain ⟨-, -, -, grown⟩ := writeRest_frame stands sized (by rwa [List.length_replicate]) rest' success
      obtain ⟨taken, grows⟩ := grown (by rwa [List.length_replicate])
      obtain ⟨chain', partition, head, -⟩ := written.byteAt inside
      rw [(finish_success written.success).2] at partition
      exact stands.lost later grows (head.trans writable.holds.start.symm) partition
    · -- the rest of the buffer goes to the start of the same cluster
      have less := Nat.mod_lt file.position sized
      have long : ¬ (List.replicate n (1 : UInt8)).length ≤ (blank fat sectorsPerCluster).clusterSize -
          file.position % (blank fat sectorsPerCluster).clusterSize := by
        rw [List.length_replicate]
        exact fun short => unfit ⟨small, total, .inl ⟨aligned, by omega⟩⟩
      have whole := done
      rw [offsetOf_inside small aligned, writeFile_inside (Nat.pos_of_ne_zero aligned) less, if_neg long] at done
      rw [List.length_replicate] at long
      obtain ⟨-, -, first, -⟩ := writeRest_frame (d := (blank fat sectorsPerCluster).setData _ _)
        ⟨writable.volume, writable.holds.partition, writable.current⟩ sized
        (by rw [List.length_drop, List.length_replicate]; omega) done success
      rw [List.getD_eq_getElem?_getD, List.getElem?_drop, Nat.add_zero, ← List.getD_eq_getElem?_getD,
        ones _ (by omega)] at first
      refine writable.early bytes whole written first (Nat.pos_of_ne_zero ?_)
      intro zero
      rw [zero, Nat.zero_mod] at aligned
      exact aligned rfl
  · obtain ⟨aligned, within⟩ := offsetOf_large (not_lt.mp small) (by omega) writable.divides
    by_cases zero : file.position % (blank fat sectorsPerCluster).clusterSize = 0
    · -- no step to the next cluster
      have whole := done
      rw [aligned zero, writeFile_zero] at done
      obtain ⟨-, -, first, -⟩ := writeRest_frame writable.stands sized (by rwa [List.length_replicate]) done success
      rw [ones 0 bytes] at first
      exact writable.early bytes whole written first (by omega)
    · exact writable.late bytes done written zero (within zero)

/-- When the write asks for no more clusters than there are, what it does to every content of the volume
and for every buffer of its length is right if and only if it fits. -/
theorem write_law_iff {fat : Fat} {sectorsPerCluster : Nat}
    (writable : Writable (blank fat sectorsPerCluster) node file chain rest) (bytes : 0 < n)
    (enough : clustersAsked chain (sectorsPerCluster * 512) file.position n ≤ fat.available.length) :
    (∀ data buffer, buffer.length = n → ∃ r, (Disk.mk fat sectorsPerCluster data).fileWrite node file buffer = some r ∧
        Written ⟨fat, sectorsPerCluster, data⟩ node chain rest file.position buffer r) ↔
      WriteFits chain (sectorsPerCluster * 512) file.position n := by
  constructor
  · intro law
    by_contra unfit
    obtain ⟨r, done, written⟩ := law (fun _ _ => 0) (List.replicate n 1) List.length_replicate
    exact writable.not_written bytes unfit done written
  · rintro fits data buffer rfl
    have any : Writable ⟨fat, sectorsPerCluster, data⟩ node file chain rest :=
      ⟨writable.geometry, writable.volume, ⟨writable.holds.partition, writable.holds.start, writable.holds.covers⟩,
        writable.size, writable.isFile, writable.writes, writable.noAppend, writable.inside, writable.current⟩
    exact any.fits_written bytes enough fits

-- A file of 1024 bytes on the clusters 2 and 3.
def twoClusters : FatNode := ⟨2, true, 1024⟩

theorem twoClusters_writable {p : Nat} (first : p ≤ 512) :
    Writable (blank Fat.oneFile 1) twoClusters ⟨fileOpenWrite, p, 2, 0⟩ [2, 3] [] where
  geometry := by decide
  volume := ⟨by decide, by decide⟩
  holds := ⟨Fat.oneFile_partition, rfl, by decide⟩
  size := by decide
  isFile := rfl
  writes := show fileOpenWrite.has fileOpenWrite = true by decide
  noAppend := show fileOpenWrite.has fileOpenAppend = false by decide
  inside := first.trans (by decide)
  current := by
    have zero : (p - 1) / (blank Fat.oneFile 1).clusterSize = 0 :=
      Nat.div_eq_of_lt (show p - 1 < 512 by omega)
    rw [show (⟨fileOpenWrite, p, 2, 0⟩ : FatDescription).position = p from rfl, zero]
    rfl

theorem write_law_iff_short_buffer :
    ∃ r, (Disk.mk Fat.oneFile 1 fun _ _ => 0).fileWrite twoClusters ⟨fileOpenWrite, 100, 2, 0⟩ (List.replicate 10 1) = some r ∧
      Written ⟨Fat.oneFile, 1, fun _ _ => 0⟩ twoClusters [2, 3] [] 100 (List.replicate 10 1) r :=
  (write_law_iff (twoClusters_writable (by decide)) (by decide) (by decide)).mpr
    ⟨by decide, by decide, .inl ⟨by decide, by decide⟩⟩ _ _ (List.length_replicate (n := 10))

/-- 600 bytes at position 100: the last 188 go to the start of the file. -/
theorem write_across_boundary :
    ¬ ∀ (d : Disk) (node : FatNode) (file : FatDescription) (chain : List Nat) (rest : List (List Nat))
        (buffer : List UInt8), Writable d node file chain rest → 0 < buffer.length →
        clustersAsked chain d.clusterSize file.position buffer.length ≤ d.fat.available.length →
        ∃ r, d.fileWrite node file buffer = some r ∧ Written d node chain rest file.position buffer r := by
  intro law
  have writable := twoClusters_writable (p := 100) (by decide)
  obtain ⟨r, done, written⟩ := law (blank Fat.oneFile 1) twoClusters ⟨fileOpenWrite, 100, 2, 0⟩ [2, 3] []
    (List.replicate 600 1) writable (by rw [List.length_replicate]; decide) (by rw [List.length_replicate]; decide)
  refine writable.not_written (n := 600) (by decide) ?_ done written
  rintro ⟨-, -, ⟨-, short⟩ | ⟨aligned, -⟩⟩
  · exact absurd short (by decide)
  · exact absurd aligned (by decide)

end Kerosene.Fat32
