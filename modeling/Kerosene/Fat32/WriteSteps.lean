import Kerosene.Fat32.FileWrite
import Kerosene.Fat32.Growth

/-!
# The loops of `write_file`
-/

namespace Kerosene.Fat32
open Lib Ramfs

variable {d d' : Disk} {node : FatNode} {file : FatDescription} {chain : List Nat} {rest : List (List Nat)}
  {buffer : List UInt8} {r : WriteResult} {current i j k offset whole actual : Nat} {keep : Bool} {l : List Nat}

/-- The cluster `current` is number `j` of the file's chain. -/
structure Stands (d : Disk) (chain : List Nat) (rest : List (List Nat)) (j current : Nat) : Prop where
  volume : d.fat.Volume
  partition : d.fat.Partition (chain :: rest)
  here : chain[j]? = some current

namespace Stands
variable (stands : Stands d chain rest j current)
include stands

theorem links : Seg d.fat.link chain.head? chain none := stands.partition.links _ List.mem_cons_self

theorem inUse {c : Nat} (member : c ∈ chain) : d.fat.InUse c := stands.partition.member member

theorem member : current ∈ chain := List.mem_of_getElem? stands.here

theorem used : d.fat.InUse current := stands.inUse stands.member

theorem index : j < chain.length := (List.getElem?_eq_some_iff.mp stands.here).1

theorem notBad : d.fat.getFatEntry current ≠ fatBadCluster := stands.used.notBad

theorem split : chain = chain.take j ++ current :: chain.drop (j + 1) := by
  obtain ⟨inside, here⟩ := List.getElem?_eq_some_iff.mp stands.here
  rw [← here, List.cons_getElem_drop_succ, List.take_append_drop]

theorem tail : Seg d.fat.link (some current) (current :: chain.drop (j + 1)) none := by
  have whole := stands.links
  rw [stands.split] at whole
  exact ⟨rfl, whole.split.2⟩

theorem outside {c : Nat} (before : c ∈ chain.take j) : c ∉ current :: chain.drop (j + 1) := by
  have nodup := stands.links.nodup
  rw [stands.split] at nodup
  exact (List.nodup_append'.mp nodup).2.2 before

theorem next (below : ¬ d.fat.getFatEntry current ≥ fatEoc) :
    Stands d chain rest (j + 1) (d.fat.getFatEntry current) := by
  refine ⟨stands.volume, stands.partition, ?_⟩
  rw [← stands.links.next_getElem? stands.here, Fat.link, if_pos (not_le.mp below)]

theorem last (ends : d.fat.getFatEntry current ≥ fatEoc) : chain.length = j + 1 := by
  have none := stands.links.next_getElem? stands.here
  rw [Fat.link, if_neg (not_lt.mpr ends), eq_comm, List.getElem?_eq_none_iff] at none
  have := stands.index
  omega

theorem last_split (ends : chain.length = j + 1) : chain = chain.take j ++ [current] := by
  have split := stands.split
  rwa [List.drop_eq_nil_of_le (by omega)] at split

theorem grow {g : Fat} {taken : List Nat} (ends : chain.length = j + 1) (grows : d.fat.Grows g current taken) :
    g.Partition ((chain ++ taken) :: rest) := by
  have partition := stands.partition
  rw [stands.last_split ends] at partition ⊢
  exact grows.partition partition

end Stands

/-! ## The first loop -/

theorem advance_spec {fuel offset' current' : Nat} (stands : Stands d chain rest j current) (sized : 0 < d.clusterSize)
    (done : d.advance fuel current offset = some (.success, d', current', offset')) :
    ∃ chain' j', Stands d' chain' rest j' current' ∧ chain <+: chain' ∧ j ≤ j' ∧
      (0 < fuel → d.clusterSize ≤ offset → j < j') ∧ d'.data = d.data ∧
      d'.sectorsPerCluster = d.sectorsPerCluster := by
  induction fuel generalizing d chain j current offset with
  | zero =>
      cases done
      exact ⟨chain, j, stands, List.prefix_rfl, le_refl j, fun h => absurd h (lt_irrefl 0), rfl, rfl⟩
  | succ fuel ih =>
      rw [Disk.advance] at done
      by_cases far : offset ≥ d.clusterSize
      · rw [if_pos far] at done
        dsimp only at done
        by_cases ends : d.fat.getFatEntry current ≥ fatEoc
        · rw [if_pos ends] at done
          cases grown : d.fat.expandClusterChain current (offset / d.clusterSize) with
          | none =>
              rw [grown] at done
              cases done
          | some result =>
              obtain ⟨new, g⟩ := result
              obtain ⟨taken, length, head, nonzero, grows⟩ := Fat.expand_grows stands.volume
                (Nat.div_pos far sized) stands.used grown
              rw [grown] at done
              dsimp only at done
              rw [if_neg nonzero] at done
              have last := stands.last ends
              have stands' : Stands (d.withFat g) (chain ++ taken) rest chain.length new := by
                refine ⟨grows.volume stands.volume, stands.grow last grows, ?_⟩
                rw [List.getElem?_append_right (le_refl _), Nat.sub_self, ← List.head?_eq_getElem?, head]
              obtain ⟨chain', j', standing, grew, later, -, data, sectors⟩ := ih stands' sized done
              exact ⟨chain', j', standing, (List.prefix_append _ _).trans grew, by omega, fun _ _ => by omega, data,
                sectors⟩
        · rw [if_neg ends, if_neg stands.notBad] at done
          obtain ⟨chain', j', standing, grew, later, -, data, sectors⟩ := ih (stands.next ends) sized done
          exact ⟨chain', j', standing, grew, by omega, fun _ _ => by omega, data, sectors⟩
      · rw [if_neg far] at done
        cases done
        exact ⟨chain, j, stands, List.prefix_rfl, le_refl j, fun _ h => absurd h far, rfl, rfl⟩

/-! ## The last loop -/

@[simp] theorem fat_setData (d : Disk) (cluster : Nat) (bytes : Nat → UInt8) :
    (d.setData cluster bytes).fat = d.fat := rfl
@[simp] theorem clusterSize_setData (d : Disk) (cluster : Nat) (bytes : Nat → UInt8) :
    (d.setData cluster bytes).clusterSize = d.clusterSize := rfl
@[simp] theorem sectorsPerCluster_setData (d : Disk) (cluster : Nat) (bytes : Nat → UInt8) :
    (d.setData cluster bytes).sectorsPerCluster = d.sectorsPerCluster := rfl
@[simp] theorem data_setData (d : Disk) (cluster : Nat) (bytes : Nat → UInt8) :
    (d.setData cluster bytes).data cluster = bytes := Function.update_self _ _ _

theorem data_setData_of_ne {c cluster : Nat} (other : c ≠ cluster) (d : Disk) (bytes : Nat → UInt8) :
    (d.setData cluster bytes).data c = d.data c := Function.update_of_ne other _ _

@[simp] theorem fat_putCluster (d : Disk) (cluster : Nat) (buffer : List UInt8) :
    (d.putCluster cluster buffer).fat = d.fat := rfl
@[simp] theorem clusterSize_putCluster (d : Disk) (cluster : Nat) (buffer : List UInt8) :
    (d.putCluster cluster buffer).clusterSize = d.clusterSize := rfl

theorem data_putCluster_of_ne {c cluster : Nat} (other : c ≠ cluster) (d : Disk) (buffer : List UInt8) :
    (d.putCluster cluster buffer).data c = d.data c := data_setData_of_ne other d _

theorem patch_inside {bytes : Nat → UInt8} (least : offset ≤ i) (below : i < offset + buffer.length) :
    patch bytes offset buffer i = buffer.getD (i - offset) 0 := if_pos ⟨least, below⟩

theorem patch_outside {bytes : Nat → UInt8} (outside : i < offset ∨ offset + buffer.length ≤ i) :
    patch bytes offset buffer i = bytes i := if_neg (by omega)

theorem data_putCluster {cluster : Nat} (inside : i < d.clusterSize) (below : i < buffer.length) :
    (d.putCluster cluster buffer).data cluster i = buffer.getD i 0 := by
  have room : i < 0 + (buffer.take d.clusterSize).length := by
    rw [List.length_take]
    omega
  rw [Disk.putCluster, data_setData, patch_inside (Nat.zero_le _) room, Nat.sub_zero, List.getD_eq_getElem?_getD,
    List.getElem?_take_of_lt inside, ← List.getD_eq_getElem?_getD]

-- one round, with the rest of the buffer spelled out
theorem writeClusters_succ : Disk.writeClusters keep (whole + 1) d current buffer actual =
    if (buffer.drop d.clusterSize).length = 0 then ⟨.success, d.putCluster current buffer, current, actual + d.clusterSize⟩
    else if d.fat.getFatEntry current ≥ fatEoc then ⟨.success, d.putCluster current buffer, current, actual + d.clusterSize⟩
    else if d.fat.getFatEntry current = fatBadCluster then
      ⟨.badCluster, d.putCluster current buffer, current, actual + d.clusterSize⟩
    else Disk.writeClusters keep whole (d.putCluster current buffer) (d.fat.getFatEntry current)
      (buffer.drop d.clusterSize) (actual + d.clusterSize) := rfl

theorem writeClusters_done (done : buffer.length - d.clusterSize = 0) :
    Disk.writeClusters keep (whole + 1) d current buffer actual =
      ⟨.success, d.putCluster current buffer, current, actual + d.clusterSize⟩ := by
  have restLength : (buffer.drop d.clusterSize).length = 0 := by rw [List.length_drop, done]
  rw [writeClusters_succ, if_pos restLength]

theorem writeClusters_next (more : buffer.length - d.clusterSize ≠ 0) (below : ¬ d.fat.getFatEntry current ≥ fatEoc)
    (notBad : d.fat.getFatEntry current ≠ fatBadCluster) :
    Disk.writeClusters keep (whole + 1) d current buffer actual =
      Disk.writeClusters keep whole (d.putCluster current buffer) (d.fat.getFatEntry current)
        (buffer.drop d.clusterSize) (actual + d.clusterSize) := by
  have restLength : ¬ (buffer.drop d.clusterSize).length = 0 := by rwa [List.length_drop]
  rw [writeClusters_succ, if_neg restLength, if_neg below, if_neg notBad]

theorem link_rest (seg : Seg d.fat.link (some current) (k :: l) none) (below : ¬ d.fat.getFatEntry current ≥ fatEoc) :
    k = current ∧ Seg d.fat.link (some (d.fat.getFatEntry current)) l none := by
  obtain ⟨same, seg⟩ := seg
  cases same
  rw [Fat.link, if_pos (not_le.mp below)] at seg
  exact ⟨rfl, seg⟩

theorem writeClusters_frame (seg : Seg d.fat.link (some current) l none) :
    (Disk.writeClusters keep whole d current buffer actual).disk.fat = d.fat ∧
      (Disk.writeClusters keep whole d current buffer actual).disk.sectorsPerCluster = d.sectorsPerCluster ∧
      ∀ c, c ∉ l → (Disk.writeClusters keep whole d current buffer actual).disk.data c = d.data c := by
  have others : ∀ c, c ∉ l → c ≠ current := by
    rintro c outside rfl
    exact outside seg.first_mem
  induction whole generalizing d current buffer actual l with
  | zero => exact ⟨rfl, rfl, fun c outside => data_setData_of_ne (others c outside) d _⟩
  | succ whole ih =>
      have here : ∀ c, c ∉ l → (d.putCluster current buffer).data c = d.data c := fun c outside =>
        data_putCluster_of_ne (others c outside) d buffer
      rw [writeClusters_succ]
      split_ifs with done ends bad
      · exact ⟨rfl, rfl, here⟩
      · exact ⟨rfl, rfl, here⟩
      · exact ⟨rfl, rfl, here⟩
      · cases l with
        | nil => cases seg.first_mem
        | cons a l =>
            obtain ⟨rfl, seg'⟩ := link_rest seg ends
            obtain ⟨fat, sectors, frame⟩ := ih (d := d.putCluster a buffer)
              seg' fun c outside => by
                rintro rfl
                exact outside (Seg.first_mem seg')
            refine ⟨fat, sectors, fun c outside => ?_⟩
            rw [List.mem_cons, not_or] at outside
            exact (frame c outside.2).trans (data_putCluster_of_ne outside.1 d buffer)

theorem writeClusters_first (sized : 0 < d.clusterSize) (bytes : 0 < buffer.length)
    (seg : Seg d.fat.link (some current) l none) :
    (Disk.writeClusters keep whole d current buffer actual).disk.data current 0 = buffer.getD 0 0 := by
  cases whole with
  | zero =>
      rw [Disk.writeClusters, data_setData, patch_inside (le_refl 0) (by omega)]
  | succ whole =>
      have here : (d.putCluster current buffer).data current 0 = buffer.getD 0 0 := data_putCluster sized bytes
      rw [writeClusters_succ]
      split_ifs with done ends bad
      · exact here
      · exact here
      · exact here
      · cases l with
        | nil => cases seg.first_mem
        | cons a l =>
            obtain ⟨rfl, seg'⟩ := link_rest seg ends
            obtain ⟨-, -, frame⟩ := writeClusters_frame (d := d.putCluster a buffer)
              seg'
            exact (congrFun (frame a (List.nodup_cons.mp seg.nodup).1) 0).trans here

/-- What the loop leaves when it writes the whole buffer over the clusters `l`. -/
structure Stored (keep : Bool) (d d' : Disk) (l : List Nat) (buffer : List UInt8) : Prop where
  new : ∀ i c off, l[i]? = some c → off < d.clusterSize → i * d.clusterSize + off < buffer.length →
    d'.data c off = buffer.getD (i * d.clusterSize + off) 0
  old : keep = true → ∀ i c off, l[i]? = some c → off < d.clusterSize → buffer.length ≤ i * d.clusterSize + off →
    d'.data c off = d.data c off

theorem le_succ_mul (i n : Nat) : n ≤ (i + 1) * n := Nat.le_mul_of_pos_left n (Nat.succ_pos i)

theorem writeClusters_spec {w : Nat} {k : Bool} (sized : 0 < d.clusterSize) (count : w = buffer.length / d.clusterSize)
    (bytes : 0 < buffer.length) (seg : Seg d.fat.link (some current) l none)
    (notBad : ∀ c ∈ l, d.fat.getFatEntry c ≠ fatBadCluster) (room : buffer.length ≤ l.length * d.clusterSize) :
    (Disk.writeClusters k w d current buffer actual).err = .success ∧
      (Disk.writeClusters k w d current buffer actual).actualWriteSize = actual + buffer.length ∧
      Stored k d (Disk.writeClusters k w d current buffer actual).disk l buffer := by
  induction w generalizing d current buffer actual l with
  | zero =>
      have short : buffer.length < d.clusterSize := Nat.lt_of_div_eq_zero sized count.symm
      cases l with
      | nil => cases seg.first_mem
      | cons a l =>
          obtain rfl := Option.some.inj seg.1
          have fresh : current ∉ l := (List.nodup_cons.mp seg.nodup).1
          refine ⟨rfl, rfl, fun i c off here inside below => ?_, fun keeps i c off here inside beyond => ?_⟩
          · cases i with
            | zero =>
                obtain rfl := Option.some.inj here
                rw [Nat.zero_mul, Nat.zero_add] at below ⊢
                rw [Disk.writeClusters, data_setData]
                exact patch_inside (Nat.zero_le _) (by omega)
            | succ i =>
                have far := le_succ_mul i d.clusterSize
                omega
          · cases i with
            | zero =>
                obtain rfl := Option.some.inj here
                rw [Nat.zero_mul, Nat.zero_add] at beyond
                rw [Disk.writeClusters, data_setData, patch_outside (by omega), if_pos keeps]
            | succ i =>
                refine congrFun (data_setData_of_ne ?_ d _) off
                rintro rfl
                exact fresh (List.mem_of_getElem? here)
  | succ w ih =>
      have long : d.clusterSize ≤ buffer.length := by
        by_contra short
        rw [Nat.div_eq_of_lt (not_le.mp short)] at count
        cases count
      have restLength : (buffer.drop d.clusterSize).length = buffer.length - d.clusterSize := List.length_drop
      cases l with
      | nil => cases seg.first_mem
      | cons a l =>
          obtain rfl := Option.some.inj seg.1
          have fresh : current ∉ l := (List.nodup_cons.mp seg.nodup).1
          have others : ∀ c ∈ l, (d.putCluster current buffer).data c = d.data c := by
            intro c member
            refine data_putCluster_of_ne ?_ d buffer
            rintro rfl
            exact fresh member
          by_cases done : buffer.length - d.clusterSize = 0
          · rw [writeClusters_done done]
            refine ⟨rfl, by dsimp only; omega, fun i c off here inside below => ?_, fun _ i c off here inside beyond => ?_⟩
            · cases i with
              | zero =>
                  obtain rfl := Option.some.inj here
                  rw [Nat.zero_mul, Nat.zero_add] at below ⊢
                  exact data_putCluster inside below
              | succ i =>
                  have far := le_succ_mul i d.clusterSize
                  omega
            · cases i with
              | zero => omega
              | succ i => exact congrFun (others c (List.mem_of_getElem? here)) off
          · have below : ¬ d.fat.getFatEntry current ≥ fatEoc := by
              intro ends
              have stops := seg.2
              rw [Fat.link, if_neg (not_lt.mpr ends)] at stops
              rw [List.head?_eq_none_iff.mp stops.head.symm, List.length_singleton, Nat.one_mul] at room
              omega
            obtain ⟨-, seg'⟩ := link_rest seg below
            rw [List.length_cons, Nat.succ_mul] at room
            have count' : w = (buffer.drop d.clusterSize).length / d.clusterSize := by
              rw [Nat.div_eq_sub_div sized long] at count
              rw [restLength]
              omega
            obtain ⟨err, size, stored⟩ := ih (d := d.putCluster current buffer)
              sized count' (by omega) seg'
              (fun c member => notBad c (List.mem_cons_of_mem current member))
              (by rw [clusterSize_putCluster]; omega)
            obtain ⟨-, -, frame⟩ := writeClusters_frame (d := d.putCluster current buffer)
              seg'
            rw [writeClusters_next done below (notBad current List.mem_cons_self)]
            refine ⟨err, by rw [size]; omega, fun i c off here inside below => ?_, fun keeps i c off here inside beyond => ?_⟩
            · cases i with
              | zero =>
                  obtain rfl := Option.some.inj here
                  rw [Nat.zero_mul, Nat.zero_add] at below ⊢
                  exact (congrFun (frame current fresh) off).trans (data_putCluster inside below)
              | succ i =>
                  rw [Nat.succ_mul] at below ⊢
                  rw [stored.new i c off here inside (by rw [clusterSize_putCluster]; omega),
                    List.getD_eq_getElem?_getD, List.getElem?_drop, ← List.getD_eq_getElem?_getD, clusterSize_putCluster]
                  congr 1
                  omega
            · cases i with
              | zero => omega
              | succ i =>
                  rw [Nat.succ_mul] at beyond
                  rw [stored.old keeps i c off here inside (by rw [clusterSize_putCluster]; omega)]
                  exact congrFun (others c (List.mem_of_getElem? here)) off

/-! ## From the estimate on -/

/-- What the second half of `write_file` leaves when it has the clusters it needs. -/
structure Filled (keep : Bool) (d : Disk) (chain : List Nat) (rest : List (List Nat)) (j : Nat) (buffer : List UInt8)
    (actual : Nat) (r : WriteResult) (chain' : List Nat) : Prop where
  success : r.err = .success
  size : r.actualWriteSize = actual + buffer.length
  sectors : r.disk.sectorsPerCluster = d.sectorsPerCluster
  grown : chain <+: chain'
  partition : r.disk.fat.Partition (chain' :: rest)
  room : buffer.length ≤ (chain'.length - j) * d.clusterSize
  stored : Stored keep d r.disk (chain'.drop j) buffer
  frame : ∀ c, c ∉ chain'.drop j → r.disk.data c = d.data c

theorem writeRest_short (stands : Stands d chain rest j current) (sized : 0 < d.clusterSize) (bytes : 0 < buffer.length)
    (short : buffer.length < d.clusterSize) :
    ∃ r, d.writeRest keep current buffer actual = some r ∧ Filled keep d chain rest j buffer actual r chain := by
  have seg := stands.tail
  have index := stands.index
  have zero : buffer.length / d.clusterSize = 0 := Nat.div_eq_of_lt short
  have drop : chain.drop j = current :: chain.drop (j + 1) := by
    obtain ⟨inside, here⟩ := List.getElem?_eq_some_iff.mp stands.here
    rw [← here, List.cons_getElem_drop_succ]
  have room : buffer.length ≤ (chain.length - j) * d.clusterSize := by
    have := Nat.le_mul_of_pos_left d.clusterSize (show 0 < chain.length - j by omega)
    omega
  have members : ∀ c ∈ chain.drop j, d.fat.getFatEntry c ≠ fatBadCluster := fun c member =>
    (stands.inUse (List.mem_of_mem_drop member)).notBad
  rw [← drop] at seg
  obtain ⟨err, size, stored⟩ := writeClusters_spec sized rfl bytes seg members
    (by rw [List.length_drop]; exact room)
  obtain ⟨fat, sectors, frame⟩ := writeClusters_frame
    seg
  refine ⟨_, ?_, err, size, sectors, List.prefix_rfl, by rw [fat]; exact stands.partition, room, stored, frame⟩
  simp only [Disk.writeRest, zero, gt_iff_lt, lt_irrefl, if_false]

theorem writeRest_last {b : List UInt8} (stands : Stands d chain rest j current) (sized : 0 < d.clusterSize)
    (long : d.clusterSize ≤ b.length) (last : chain.length = j + 1)
    (enough : b.length / d.clusterSize ≤ d.fat.available.length) :
    ∃ r chain', d.writeRest keep current b actual = some r ∧ Filled keep d chain rest j b actual r chain' := by
  have some : 1 ≤ b.length / d.clusterSize := Nat.div_pos long sized
  obtain ⟨taken, new, g, done, length, head, nonzero, grows⟩ := Fat.expand_spec stands.volume some enough stands.used
  have drop : (chain ++ taken).drop j = current :: taken := by
    conv_lhs => rw [stands.last_split last]
    rw [List.append_assoc, List.drop_left' (by rw [List.length_take]; omega)]
    rfl
  have room : b.length ≤ (taken.length + 1) * d.clusterSize := by
    rw [length, Nat.mul_comm]
    exact (Nat.lt_mul_div_succ b.length sized).le
  have seg : Seg (d.withFat g).fat.link (Option.some current) (current :: taken) none := grows.links
  obtain ⟨err, size, stored⟩ := writeClusters_spec (d := d.withFat g) (k := keep)
    (w := b.length / d.clusterSize) sized rfl (by omega) seg (fun c member => (grows.used c member).2) room
  obtain ⟨fat, sectors, frame⟩ := writeClusters_frame (d := d.withFat g)
    seg
  refine ⟨_, chain ++ taken, ?_, err, size, sectors, List.prefix_append _ _, by rw [fat]; exact stands.grow last grows,
    ?_, ?_, ?_⟩
  · simp only [Disk.writeRest, done, nonzero, if_false, if_pos (show b.length / d.clusterSize > 0 from some)]
  · rw [List.length_append, last, show j + 1 + taken.length - j = taken.length + 1 by omega]
    exact room
  · rw [drop]
    exact ⟨stored.new, stored.old⟩
  · rw [drop]
    exact frame

theorem writeRest_frame (stands : Stands d chain rest j current) (sized : 0 < d.clusterSize) (bytes : 0 < buffer.length)
    (done : d.writeRest keep current buffer actual = some r) (success : r.err = .success) :
    r.disk.sectorsPerCluster = d.sectorsPerCluster ∧
      (∀ c ∈ chain.take j, r.disk.fat.entry c = d.fat.entry c ∧ r.disk.data c = d.data c) ∧
      r.disk.data current 0 = buffer.getD 0 0 ∧
      (d.clusterSize ≤ buffer.length → ∃ taken, d.fat.Grows r.disk.fat current taken) := by
  rw [Disk.writeRest] at done
  by_cases some : buffer.length / d.clusterSize > 0
  · rw [if_pos some] at done
    cases grown : d.fat.expandClusterChain current (buffer.length / d.clusterSize) with
    | none =>
        rw [grown] at done
        cases done
    | some result =>
        obtain ⟨new, g⟩ := result
        obtain ⟨taken, length, head, nonzero, grows⟩ := Fat.expand_grows stands.volume some stands.used grown
        rw [grown] at done
        dsimp only at done
        rw [if_neg nonzero] at done
        cases done
        have seg : Seg (d.withFat g).fat.link (Option.some current) (current :: taken) none := grows.links
        obtain ⟨fat, sectors, frame⟩ := writeClusters_frame (d := d.withFat g)
          seg
        refine ⟨sectors, fun c before => ?_, writeClusters_first (d := d.withFat g) sized bytes seg, fun _ => ?_⟩
        · have notTaken : c ∉ taken := fun took =>
            (stands.inUse (List.mem_of_mem_take before)).notFree' (grows.free c took)
          have notHere : c ≠ current := by
            rintro rfl
            exact stands.outside before List.mem_cons_self
          refine ⟨?_, frame c (by simp [notHere, notTaken])⟩
          rw [fat]
          exact grows.same c notHere notTaken
        · rw [fat]
          exact ⟨taken, grows⟩
  · rw [if_neg some] at done
    cases done
    have seg := stands.tail
    obtain ⟨fat, sectors, frame⟩ := writeClusters_frame
      seg
    refine ⟨sectors, fun c before => ⟨by rw [fat], frame c (stands.outside before)⟩,
      writeClusters_first sized bytes seg, fun long => ?_⟩
    exact absurd (Nat.div_pos long sized) some

/-! ## Where the write starts -/

def offsetOf (position clusterSize : Nat) : Nat := toUnsigned (writeOffset (toInt position) clusterSize)

section Offset
variable {position size : Nat}

theorem toInt_small (small : position < 2 ^ 31) : toInt position = position := by
  rw [toInt, Nat.mod_eq_of_lt (by omega), if_pos small]

theorem toInt_large (large : 2 ^ 31 ≤ position) (fits : position < 2 ^ 32) : toInt position = position - 2 ^ 32 := by
  rw [toInt, Nat.mod_eq_of_lt fits, if_neg (by omega)]

theorem offsetOf_inside (small : position < 2 ^ 31) (within : position % size ≠ 0) :
    offsetOf position size = position % size := by
  have rem : (position : Int).tmod size = (position % size : Nat) := by rw [Int.ofNat_tmod]
  have less : position % size ≤ position := Nat.mod_le _ _
  rw [offsetOf, toInt_small small, writeOffset, rem]
  rw [if_neg (by omega), toUnsigned]
  omega

theorem offsetOf_zero : offsetOf 0 size = 0 := by
  rw [offsetOf, toInt_small (by decide)]
  simp [writeOffset, toUnsigned]

theorem offsetOf_aligned (small : position < 2 ^ 31) (aligned : position % size = 0) (positive : 0 < position)
    (fits : size < 2 ^ 32) : offsetOf position size = size := by
  have rem : (position : Int).tmod size = (position % size : Nat) := by rw [Int.ofNat_tmod]
  rw [offsetOf, toInt_small small, writeOffset, rem, aligned]
  rw [if_pos ⟨rfl, by omega⟩, toUnsigned]
  omega

-- A position from 2^31 on is negative as an `int`.
theorem offsetOf_large (large : 2 ^ 31 ≤ position) (fits : position < 2 ^ 32) (divides : size ∣ 2 ^ 16) :
    (position % size = 0 → offsetOf position size = 0) ∧ (position % size ≠ 0 → size ≤ offsetOf position size) := by
  have bound : size ≤ 2 ^ 16 := Nat.le_of_dvd (by decide) divides
  have positive : 0 < size := Nat.pos_of_dvd_of_pos divides (by decide)
  have whole : ((size : Nat) : Int) ∣ 2 ^ 32 := by
    have : size ∣ 2 ^ 32 := divides.trans (by decide)
    exact_mod_cast this
  have rem : (toInt position).tmod size = -(((2 ^ 32 - position) % size : Nat) : Int) := by
    have minus : toInt position = -((2 ^ 32 - position : Nat) : Int) := by
      rw [toInt_large large fits]
      omega
    rw [minus, Int.neg_tmod, Int.ofNat_tmod]
  have zero : (2 ^ 32 - position) % size = 0 ↔ position % size = 0 := by
    have whole' : size ∣ 2 ^ 32 := divides.trans (by decide)
    rw [← Nat.dvd_iff_mod_eq_zero, ← Nat.dvd_iff_mod_eq_zero]
    constructor
    · intro rest
      have := Nat.dvd_sub whole' rest
      rwa [Nat.sub_sub_self (by omega)] at this
    · exact fun here => Nat.dvd_sub whole' here
  have negative : ¬ toInt position > 0 := by
    rw [toInt_large large fits]
    omega
  have less := Nat.mod_lt (2 ^ 32 - position) positive
  rw [offsetOf, writeOffset, rem]
  rw [if_neg (fun both => negative both.2), toUnsigned]
  refine ⟨fun aligned => ?_, fun within => ?_⟩
  · rw [zero.mpr aligned]
    rfl
  · have more : (2 ^ 32 - position) % size ≠ 0 := fun h => within (zero.mp h)
    omega

end Offset

end Kerosene.Fat32
