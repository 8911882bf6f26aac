import Kerosene.Fat32.WriteLaw

/-!
# Writes of at most a cluster

What such a write leaves besides the bytes: where the descriptor stands, and how many clusters are still free.
-/

namespace Kerosene.Fat32
open Lib Ramfs

variable {d d' : Disk} {node : FatNode} {file : FatDescription} {chain chain' : List Nat} {rest : List (List Nat)}
  {buffer : List UInt8} {r : WriteResult} {current j n : Nat}

/-- `n` bytes are written, the chain has grown by `count` clusters, and the descriptor is left at `current`. -/
structure Left (d : Disk) (chain : List Nat) (rest : List (List Nat)) (current count n : Nat) (r : WriteResult)
    (chain' : List Nat) : Prop where
  success : r.err = .success
  written : r.actualWriteSize = n
  current : r.current = current
  volume : r.disk.fat.Volume
  partition : r.disk.fat.Partition (chain' :: rest)
  grown : chain <+: chain'
  sectors : r.disk.sectorsPerCluster = d.sectorsPerCluster
  length : chain'.length = chain.length + count
  left : d.fat.available.length ≤ r.disk.fat.available.length + count

theorem writeRest_left (keep : Bool) (actual : Nat) (stands : Stands d chain rest j current) (sized : 0 < d.clusterSize)
    (small : buffer.length ≤ d.clusterSize) (enough : buffer.length / d.clusterSize ≤ d.fat.available.length)
    (last : buffer.length = d.clusterSize → chain.length = j + 1) :
    ∃ r chain', d.writeRest keep current buffer actual = some r ∧
      Left d chain rest current (buffer.length / d.clusterSize) (actual + buffer.length) r chain' := by
  rcases small.lt_or_eq with short | whole
  · have zero : buffer.length / d.clusterSize = 0 := Nat.div_eq_of_lt short
    have done : d.writeRest keep current buffer actual = some (Disk.writeClusters keep 0 d current buffer actual) := by
      rw [Disk.writeRest, zero]
      exact if_neg (lt_irrefl 0)
    rw [zero]
    exact ⟨_, chain, done, rfl, rfl, rfl, stands.volume, stands.partition, List.prefix_rfl, rfl, rfl, le_rfl⟩
  · have one : buffer.length / d.clusterSize = 1 := by rw [whole, Nat.div_self sized]
    rw [one] at enough
    obtain ⟨taken, new, g, expanded, length, -, nonzero, grows⟩ := Fat.expand_spec stands.volume le_rfl enough stands.used
    have filled : buffer.length - (d.withFat g).clusterSize = 0 := Nat.sub_eq_zero_of_le small
    have done : d.writeRest keep current buffer actual =
        some ⟨.success, (d.withFat g).putCluster current buffer, current, actual + d.clusterSize⟩ := by
      simp only [Disk.writeRest, one, expanded, nonzero, if_false, gt_iff_lt, Nat.one_pos, if_true]
      rw [writeClusters_done filled]
      rfl
    rw [one]
    exact ⟨_, chain ++ taken, done, rfl, by rw [whole], rfl, grows.volume stands.volume, stands.grow (last whole) grows,
      List.prefix_append _ _, rfl, by rw [List.length_append, length],
      Fat.expand_available stands.volume le_rfl stands.used expanded⟩

theorem Writable.fileWrite_left (writable : Writable d node file chain rest) (bytes : 0 < buffer.length)
    (small : buffer.length ≤ d.clusterSize)
    (enough : clustersAsked chain d.clusterSize file.position buffer.length ≤ d.fat.available.length)
    (fits : WriteFits chain d.clusterSize file.position buffer.length) :
    ∃ r chain' c, d.writeFile file.currentCluster buffer (offsetOf file.position d.clusterSize) node.size
        (toUnsigned (toInt file.position + buffer.length)) = some r ∧
      Left d chain rest c (clustersAsked chain d.clusterSize file.position buffer.length) buffer.length r chain' ∧
      chain'[(file.position + buffer.length - 1) / d.clusterSize]? = some c := by
  have sized := writable.sized
  have stands := writable.stands
  have whole := Nat.div_add_mod' file.position d.clusterSize
  obtain ⟨below, -, ⟨within, short⟩ | ⟨aligned, either⟩⟩ := fits
  · have less := Nat.mod_lt file.position sized
    have same : (file.position + buffer.length - 1) / d.clusterSize = file.position / d.clusterSize :=
      Nat.div_eq_of_lt_le (by omega) (by rw [Nat.succ_mul]; omega)
    rw [pred_div_inside sized within] at stands
    rw [offsetOf_inside below within, writeFile_inside (Nat.pos_of_ne_zero within) less, if_pos (by omega), clustersAsked,
      if_neg within, same]
    exact ⟨_, chain, file.currentCluster, rfl, ⟨rfl, rfl, rfl, stands.volume, stands.partition, List.prefix_rfl, rfl, rfl, le_rfl⟩,
      stands.here⟩
  · rw [clustersAsked_aligned aligned] at enough ⊢
    obtain ⟨d₁, chain₁, current₁, equal, stands₁, grown, data, sectors, left, length, fewer⟩ := writable.starts below aligned enough
    have sameSize : d₁.clusterSize = d.clusterSize := by rw [Disk.clusterSize, sectors, Disk.clusterSize]
    have inside := stands₁.index
    have last : buffer.length = d₁.clusterSize → chain₁.length = file.position / d.clusterSize + 1 := by
      intro all
      have short := either.resolve_left (by omega)
      rw [stepAsked] at length
      split_ifs at length <;> omega
    obtain ⟨r, chain', done, left'⟩ := writeRest_left
      (toUnsigned (toInt file.position + buffer.length) ≤ node.size) 0 stands₁ (by rwa [sameSize]) (by rwa [sameSize])
      (by rwa [sameSize]) last
    rw [sameSize] at left'
    have more := left'.left
    refine ⟨r, chain', current₁, (equal ..).trans done,
      ⟨left'.success, left'.written.trans (Nat.zero_add _), left'.current, left'.volume, left'.partition,
      grown.trans left'.grown, left'.sectors.trans sectors, by rw [left'.length, length, Nat.add_assoc], by omega⟩, ?_⟩
    have same : (file.position + buffer.length - 1) / d.clusterSize = file.position / d.clusterSize :=
      Nat.div_eq_of_lt_le (by omega) (by rw [Nat.succ_mul]; omega)
    obtain ⟨tail, rfl⟩ := left'.grown
    rw [same, List.getElem?_append_left inside]
    exact stands₁.here

/-! ## Writing at the end, piece by piece -/

/-- The file holds `stored`, the descriptor stands at its end, and the pieces so far had 512 bytes. No cluster but the
next one is taken in advance, so that clusters are left for `total` bytes. -/
structure Appends (d : Disk) (node : FatNode) (file : FatDescription) (chain : List Nat) (rest : List (List Nat)) (total : Nat)
    (stored : List UInt8) : Prop extends Writable d node file chain rest where
  atEnd : file.position = node.size
  holds_ : d.content chain node.size = stored
  tight : chain.length ≤ node.size / d.clusterSize + 1
  left : total / d.clusterSize + 1 ≤ chain.length + d.fat.available.length

theorem clustersAsked_tight {size position : Nat} (sized : 0 < size) (tight : chain.length ≤ position / size + 1) :
    chain.length + clustersAsked chain size position n ≤ (position + n) / size + 1 := by
  by_cases aligned : position % size = 0
  · have sum : (position + n) / size = position / size + n / size := by
      obtain ⟨k, rfl⟩ := Nat.dvd_of_mod_eq_zero aligned
      rw [Nat.mul_add_div sized, Nat.mul_div_cancel_left k sized]
    rw [clustersAsked_aligned aligned, stepAsked, sum]
    split_ifs <;> omega
  · rw [clustersAsked, if_neg aligned]
    have := Nat.div_le_div_right (c := size) (Nat.le_add_right position n)
    omega

namespace Appends
variable {total : Nat} {stored : List UInt8} (appends : Appends d node file chain rest total stored)
include appends

theorem length : node.size = stored.length := by
  rw [← appends.holds_, length_content]

theorem fits (whole : 512 ∣ file.position) (bytes : 0 < n) (piece : n ≤ 512) (room : file.position + n ≤ total)
    (small : total ≤ 2 ^ 31) : WriteFits chain d.clusterSize file.position n := by
  have sized := appends.sized
  have tight := appends.tight
  rw [← appends.atEnd] at tight
  refine ⟨by omega, by omega, ?_⟩
  by_cases aligned : file.position % d.clusterSize = 0
  · exact .inr ⟨aligned, .inr tight⟩
  · obtain ⟨k, offset⟩ : 512 ∣ file.position % d.clusterSize := (Nat.dvd_mod_iff (Nat.dvd_mul_left 512 _)).mpr whole
    have less := Nat.mod_lt file.position sized
    have units : d.clusterSize = d.sectorsPerCluster * 512 := rfl
    exact .inl ⟨aligned, by omega⟩

theorem step (buffer : List UInt8) (whole : 512 ∣ file.position) (bytes : 0 < buffer.length) (piece : buffer.length ≤ 512)
    (room : file.position + buffer.length ≤ total) (small : total ≤ 2 ^ 31) :
    ∃ r chain', d.fileWrite node file buffer = some r ∧ r.err = .success ∧
      Appends r.disk r.node r.file chain' rest total (stored ++ buffer) ∧
      r.file.position = file.position + buffer.length ∧ r.node.startCluster = node.startCluster ∧
      ∀ l ∈ rest, ∀ c ∈ l, r.disk.data c = d.data c := by
  have sized := appends.sized
  have fits := appends.fits whole bytes piece room small
  have tight := appends.tight
  rw [← appends.atEnd] at tight
  have fewer := clustersAsked_tight (n := buffer.length) sized tight
  have growth := Nat.div_le_div_right (c := d.clusterSize) room
  have left := appends.left
  have enough : clustersAsked chain d.clusterSize file.position buffer.length ≤ d.fat.available.length := by omega
  have units : 512 ≤ d.clusterSize := Nat.le_of_dvd sized (Nat.dvd_mul_left 512 _)
  obtain ⟨r, done, written⟩ := appends.toWritable.fits_written bytes enough fits
  obtain ⟨w, chain', c, call, grew, here⟩ := appends.toWritable.fileWrite_left bytes (piece.trans units) enough fits
  have outcome : d.fileWrite node file buffer = some (finish node file w) := by
    rw [appends.toWritable.fileWrite_eq, call, Option.map_some]
  obtain rfl : finish node file w = r := Option.some.inj (outcome.symm.trans done)
  obtain ⟨all, holds, start, same⟩ := written.file
  have disk : (finish node file w).disk = w.disk := (finish_success written.success).2
  rw [disk] at holds same
  have chains : all = chain' := by
    have head : chain'.head? = all.head? := by
      obtain ⟨tail, rfl⟩ := grew.grown
      rw [List.head?_append, appends.holds.start, holds.start, start]
      rfl
    have seg := seg_of_partition grew.partition
    rw [head] at seg
    exact (seg_of_partition holds.partition).unique seg
  subst chains
  have ended := appends.atEnd
  have final : finish node file w = ⟨.success, w.disk, { node with size := node.size + buffer.length },
      { file with currentCluster := c, position := file.position + buffer.length }⟩ := by
    rw [finish, if_neg (not_not.mpr grew.success), grew.written, if_pos (by omega), grew.current,
      Nat.mod_eq_of_lt (by omega), ended]
  rw [final] at written holds same outcome
  have sameSize : w.disk.clusterSize = d.clusterSize := by rw [Disk.clusterSize, grew.sectors, Disk.clusterSize]
  refine ⟨_, all, outcome, rfl, ⟨⟨by rw [grew.sectors]; exact appends.geometry, grew.volume, holds, ?_, appends.isFile,
    appends.writes, appends.noAppend, ?_, ?_⟩, ?_, ?_, ?_, ?_⟩, rfl, rfl, written.others⟩
  · show node.size + buffer.length < 2 ^ 32
    omega
  · show file.position + buffer.length ≤ node.size + buffer.length
    omega
  · rwa [sameSize]
  · exact congrArg (fun n => n + buffer.length) ended
  · rw [same, ended, appends.holds_, splice, ← ended, ended, appends.length, List.take_length,
      List.drop_eq_nil_of_le (by omega), List.append_nil]
  · show all.length ≤ (node.size + buffer.length) / w.disk.clusterSize + 1
    rwa [sameSize, grew.length, ← ended]
  · have fewer' := grew.left
    rw [sameSize, grew.length]
    show total / d.clusterSize + 1 ≤ _ + w.disk.fat.available.length
    omega

end Appends

end Kerosene.Fat32
