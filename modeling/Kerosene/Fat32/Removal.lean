import Kerosene.Fat32.FoundNames
import Kerosene.Fat32.RemoveEntry
import Kerosene.Fat32.WriteLaw

/-!
# What `fat32_remove_entry` takes out of the listing
-/

namespace Kerosene.Fat32
open Lib
open Ramfs (Name fsNodeType fsNodeTypeDirectory)
variable {name : Name} {items before after : List Item} {long : List (List UInt8)} {short : List UInt8}

theorem length_slots_file (name : Name) (long : List (List UInt8)) (short : List UInt8) :
    (Item.file name long short).slots.length = long.length + 1 := by
  rw [Item.slots, List.length_append, List.length_singleton]

theorem holes_of_trailing {r : Nat} (valid : ∀ item ∈ items, item.Valid) (few : r ≤ (slotsOf items).length)
    (deleted : ∀ slot ∈ (slotsOf items).drop ((slotsOf items).length - r), slot.getD 0 0 = 0xe5) :
    ∃ (front : List Item) (holes : List (List UInt8)), items = front ++ holes.map Item.hole ∧
      slotsOf front = (slotsOf items).take ((slotsOf items).length - r) := by
  induction r generalizing items with
  | zero => exact ⟨items, [], (List.append_nil _).symm, by rw [Nat.sub_zero, List.take_length]⟩
  | succ r ih =>
      rcases List.eq_nil_or_concat items with rfl | ⟨front, last, rfl⟩
      · cases few
      · rw [List.concat_eq_append] at valid few deleted ⊢
        have lastValid := valid last (by simp)
        rw [slotsOf_append, slotsOf_cons] at few deleted
        simp only [slotsOf, List.flatMap_nil, List.append_nil] at few deleted
        rw [← slotsOf] at few deleted
        rw [List.length_append] at few deleted
        cases lastValid with
        | hole gone =>
            rename_i slot
            simp only [Item.slots, List.length_singleton] at few deleted
            have frontValid : ∀ item ∈ front, item.Valid := fun item member => valid item (by simp [member])
            obtain ⟨front', holes, same, slots⟩ := ih frontValid (by omega) fun slot member => deleted slot (by
                rw [Nat.add_sub_add_right, List.drop_append_of_le_length (by omega)]
                exact List.mem_append_left _ member)
            refine ⟨front', holes ++ [slot], by rw [same, List.map_append, List.append_assoc]; rfl, ?_⟩
            rw [slots, slotsOf_append, slotsOf_cons]
            simp only [slotsOf, List.flatMap_nil, List.append_nil, Item.slots]
            rw [← slotsOf, List.length_append, List.length_singleton, Nat.add_sub_add_right,
              List.take_append_of_le_length (by omega)]
        | file isShort named =>
            rename_i name long short
            rw [length_slots_file, Item.slots, ← List.append_assoc] at deleted
            refine absurd (deleted short ?_) isShort.kept
            have bound : (slotsOf front).length + (long.length + 1) - (r + 1) ≤ (slotsOf front ++ long).length := by
              rw [List.length_append]
              omega
            rw [List.drop_append_of_le_length bound]
            exact List.mem_append_right _ (List.mem_singleton_self _)

namespace Disk
variable {d d' : Disk} {chain : List Nat} {p : Nat}

theorem filesFrom_holes (d : Disk) (chain : List Nat) (rootdirCluster : UInt32) (p : Nat) (holes : List (List UInt8)) :
    d.filesFrom chain rootdirCluster p (holes.map Item.hole) = [] := by
  induction holes generalizing p with
  | nil => rfl
  | cons hole holes ih => exact ih (p + 1)

/-! ## The steps of the removal -/

instance stopsDecidable : (slots : List (List UInt8)) → Decidable (Stops slots)
  | [] => .isTrue fun _ head => by cases head
  | slot :: _ => decidable_of_iff (slot.getD 0 0 = 0x00)
      ⟨fun free _ same => Option.some.inj same ▸ free, fun stops => stops slot rfl⟩

theorem clearVal_eq {row col : Nat} (on : d.DirChain chain) (rowInside : row < chain.length) (small : col < d.slotsPerCluster) :
    d.clearVal (chain.getD row 0) (32 * col) =
      if Stops ((d.dirSlots chain).drop (d.slotsPerCluster * row + col + 1)) then 0x00 else 0xe5 := by
  have size := d.clusterSize_eq
  have whole := Nat.mul_le_mul_left d.slotsPerCluster (Nat.succ_le_of_lt rowInside)
  rw [Nat.mul_succ] at whole
  have stops_iff : ∀ q, q < d.slotsPerCluster * chain.length →
      (Stops ((d.dirSlots chain).drop q) ↔ d.firstByte chain q = 0x00) := by
    intro q inside
    have here := getElem?_dirSlots d inside
    rw [firstByte_eq here, Stops, List.head?_drop, here]
    exact ⟨fun stops => stops _ rfl, fun free slot same => by cases same; exact free⟩
  rw [clearVal]
  by_cases inRow : col + 1 < d.slotsPerCluster
  · rw [if_pos (by omega), show 32 * col + 32 = 32 * (col + 1) by omega, ← firstByte_row inRow]
    exact if_congr (stops_iff (d.slotsPerCluster * row + (col + 1)) (by omega)).symm rfl rfl
  · rw [if_neg (by omega)]
    have next : d.slotsPerCluster * row + col + 1 = d.slotsPerCluster * (row + 1) := by
      rw [Nat.mul_succ]
      omega
    rw [next]
    by_cases more : row + 1 < chain.length
    · have link := (List.isChain_iff_getElem.mp on.linked row more)
      rw [List.getD_eq_getElem _ _ rowInside, link.1]
      have below : ¬ (chain[row + 1] ≥ fatEoc ∨ chain[row + 1] = fatBadCluster) := by
        have := link.2
        simp only [fatEoc, fatBadCluster] at this ⊢
        omega
      have first : d.firstByte chain (d.slotsPerCluster * (row + 1) + 0) = d.data (chain.getD (row + 1) 0) (32 * 0) :=
        firstByte_row (Nat.zero_lt_of_lt small)
      rw [List.getD_eq_getElem _ _ more] at first
      simp only
      rw [if_neg below, ← first]
      exact if_congr (stops_iff _ (Nat.mul_lt_mul_of_pos_left more (Nat.zero_lt_of_lt small))).symm rfl rfl
    · have last : chain.getLast? = some (chain.getD row 0) := by
        rw [List.getLast?_eq_getElem?, show chain.length - 1 = row by omega, List.getD_eq_getElem _ _ rowInside,
          List.getElem?_eq_getElem rowInside]
      have none : Stops ((d.dirSlots chain).drop (d.slotsPerCluster * (row + 1))) := by
        rw [List.drop_of_length_le (by rw [length_dirSlots]; exact Nat.mul_le_mul_left _ (by omega))]
        rintro _ ⟨⟩
      simp only
      rw [if_pos (.inl (on.ends _ last)), if_pos none]

theorem previousCluster_eq {fuel row j last : Nat} (on : d.DirChain chain) (rowInside : row < chain.length) (before : j ≤ row)
    (enough : row < fuel + j) : d.previousCluster (chain.getD row 0) fuel last (chain.getD j 0) =
      some (if j = row then last else chain.getD (row - 1) 0) := by
  induction fuel generalizing j last with
  | zero => omega
  | succ fuel ih =>
      rw [previousCluster]
      by_cases here : j = row
      · rw [here, if_neg (not_not.mpr rfl), if_pos rfl]
      · have jInside : j + 1 < chain.length := by omega
        have link := (List.isChain_iff_getElem.mp on.linked j jInside).1
        have other : chain.getD j 0 ≠ chain.getD row 0 := by
          rw [List.getD_eq_getElem _ _ rowInside, List.getD_eq_getElem _ _ (by omega)]
          exact fun same => here (on.nodup.getElem_inj_iff.mp same)
        have next : d.fat.getFatEntry (chain.getD j 0) = chain.getD (j + 1) 0 := by
          rw [List.getD_eq_getElem _ _ jInside, List.getD_eq_getElem _ _ (by omega), link]
        rw [if_pos other, if_neg here, next, ih (by omega) (by omega)]
        split_ifs with arrived
        · rw [← arrived, Nat.add_sub_cancel]
        · rfl

/-- `node` is the entry in slot `q` of the directory, with `count` long-name slots. -/
structure Names (d : Disk) (chain : List Nat) (node : FsNode) (q count : Nat) : Prop where
  cluster : node.parentCluster = d.clusterOf chain q
  index : node.parentClusterIndex = d.indexOf q
  counts : count = if isValidSfn (cString node.name) then 0 else ((cString node.name).length + 12) / 13

variable {node : FsNode} {q count fuel : Nat}

theorem removeEntry_eq (names : d.Names chain node q count) (start : Nat) (stack : Int → UInt8) :
    d.fat32RemoveEntry fuel start node false stack =
      let current := d.clusterOf chain q
      let index := d.indexOf q
      let val := d.clearVal current index
      let goBack := count * 32 - index
      let d₁ := if val = 0xe5 ∨ goBack = 0 then
          d.setData current (markSlots (d.data current) (index - count * 32) ((index + 32 - (index - count * 32)) / 32) val)
        else d
      ((d₁.markPrevious fuel start current goBack val).bind fun d₂ =>
        if val = 0x00 then d₂.fixEmptyEntries fuel start current else some d₂).map (RemoveErr.success, ·) := by
  simp only [fat32RemoveEntry, Bool.false_eq_true, false_and, and_false, if_false, ← names.cluster, ← names.index, ← names.counts,
    Option.bind_eq_bind, Option.bind_some]
  rw [Option.map_bind]
  congr 1
  funext d₂
  rw [Function.comp_apply]
  split_ifs
  · exact (Option.map_eq_bind ..).symm
  · rfl

theorem removeEntry_within (names : d.Names chain node q count) (on : d.DirChain chain)
    (inside : q < d.slotsPerCluster * chain.length) (within : count ≤ q % d.slotsPerCluster) (fuel start : Nat) (stack : Int → UInt8) :
    let val := d.clearVal (d.clusterOf chain q) (d.indexOf q)
    ∃ d₁, d₁.fat = d.fat ∧ d₁.sectorsPerCluster = d.sectorsPerCluster ∧ (∀ c ∉ chain, d₁.data c = d.data c) ∧
      d₁.dirSlots chain = markRange (q - count) (count + 1) val (d.dirSlots chain) ∧
      d.fat32RemoveEntry fuel start node false stack =
        (if val = 0x00 then d₁.fixEmptyEntries fuel start (d.clusterOf chain q) else some d₁).map (RemoveErr.success, ·) := by
  intro val
  have pos : 0 < d.slotsPerCluster := Nat.pos_of_ne_zero fun zero => by simp [zero] at inside
  have split := Nat.div_add_mod q d.slotsPerCluster
  have small := Nat.mod_lt q pos
  have rowInside : q / d.slotsPerCluster < chain.length := Nat.div_lt_of_lt_mul inside
  have marked := dirSlots_markSlots (d := d) on.nodup rowInside (q % d.slotsPerCluster - count) (count + 1) (by omega) val
  refine ⟨d.setData (d.clusterOf chain q) (markSlots (d.data (d.clusterOf chain q))
    (32 * (q % d.slotsPerCluster - count)) (count + 1) val), rfl, rfl, fun c outside => Function.update_of_ne ?_ _ _, ?_, ?_⟩
  · rintro rfl
    rw [clusterOf, List.getD_eq_getElem _ _ rowInside] at outside
    exact outside (List.getElem_mem _)
  · rw [clusterOf, marked]
    congr 1
    omega
  · have goBack : count * 32 - d.indexOf q = 0 := by
      rw [indexOf]
      omega
    have first : d.indexOf q - count * 32 = 32 * (q % d.slotsPerCluster - count) := by
      rw [indexOf]
      omega
    have number : (d.indexOf q + 32 - 32 * (q % d.slotsPerCluster - count)) / 32 = count + 1 := by
      rw [indexOf]
      omega
    rw [removeEntry_eq names]
    simp only [goBack, or_true, if_true, first, number]
    rfl

theorem across_row (inside : q < d.slotsPerCluster * chain.length) (front : count ≤ q) (across : q % d.slotsPerCluster < count) :
    ∃ row, q / d.slotsPerCluster = row + 1 ∧ row + 1 < chain.length ∧
      d.slotsPerCluster * row + d.slotsPerCluster + q % d.slotsPerCluster = q ∧ q % d.slotsPerCluster < d.slotsPerCluster ∧
      d.clusterOf chain q = chain.getD (row + 1) 0 := by
  have pos : 0 < d.slotsPerCluster := Nat.pos_of_ne_zero fun zero => by simp [zero] at inside
  have split := Nat.div_add_mod q d.slotsPerCluster
  obtain ⟨row, isRow⟩ : ∃ row, q / d.slotsPerCluster = row + 1 := by
    refine Nat.exists_eq_add_one.mpr (Nat.pos_of_ne_zero fun zero => ?_)
    rw [zero] at split
    omega
  rw [isRow, Nat.mul_succ] at split
  exact ⟨row, isRow, isRow ▸ Nat.div_lt_of_lt_mul inside, split, Nat.mod_lt q pos, by rw [clusterOf, isRow]⟩

/-- The first slots of the entry are at the end of the previous cluster; slots in use are behind the entry. -/
theorem removeEntry_across (names : d.Names chain node q count) (on : d.DirChain chain)
    (inside : q < d.slotsPerCluster * chain.length) (front : count ≤ q) (across : q % d.slotsPerCluster < count)
    (two : count ≤ q % d.slotsPerCluster + d.slotsPerCluster) (val : d.clearVal (d.clusterOf chain q) (d.indexOf q) = 0xe5)
    (enough : chain.length ≤ fuel) (stack : Int → UInt8) :
    ∃ d₂, d₂.fat = d.fat ∧ d₂.sectorsPerCluster = d.sectorsPerCluster ∧ (∀ c ∉ chain, d₂.data c = d.data c) ∧
      d₂.dirSlots chain = markRange (q - count) (count + 1) 0xe5 (d.dirSlots chain) ∧
      d.fat32RemoveEntry fuel (chain.getD 0 0) node false stack = some (.success, d₂) := by
  obtain ⟨row, isRow, rowInside, split, small, current⟩ := across_row inside front across
  have previousInside : row < chain.length := Nat.lt_of_succ_lt rowInside
  set col := q % d.slotsPerCluster with isCol
  -- the two marks
  set d₁ := d.setData (chain.getD (row + 1) 0) (markSlots (d.data (chain.getD (row + 1) 0)) (32 * 0) (col + 1) 0xe5) with isD₁
  have marked₁ : d₁.dirSlots chain = _ := dirSlots_markSlots (d := d) on.nodup rowInside 0 (col + 1) (by omega) 0xe5
  have marked₂ := dirSlots_markSlots (d := d₁) on.nodup previousInside (d.slotsPerCluster - (count - col)) (count - col)
    (by rw [isD₁, slotsPerCluster_setData]; omega) 0xe5
  have previous : d₁.previousCluster (chain.getD (row + 1) 0) fuel (chain.getD 0 0) (chain.getD 0 0) =
      some (chain.getD row 0) :=
    previousCluster_eq (d := d₁) ⟨on.linked, on.ends, on.nodup⟩ rowInside (Nat.zero_le _) (rowInside.trans_le enough)
  have outside : ∀ j < chain.length, ∀ c ∉ chain, c ≠ chain.getD j 0 := by
    rintro j bound c other rfl
    rw [List.getD_eq_getElem _ _ bound] at other
    exact other (List.getElem_mem _)
  refine ⟨d₁.setData (chain.getD row 0) (markSlots (d₁.data (chain.getD row 0)) (32 * (d.slotsPerCluster - (count - col)))
    (count - col) 0xe5), rfl, rfl, fun c other => ?_, ?_, ?_⟩
  · exact (Function.update_of_ne (outside row previousInside c other) _ _).trans
      (Function.update_of_ne (outside (row + 1) rowInside c other) _ _)
  · have start : d.slotsPerCluster * row + (d.slotsPerCluster - (count - col)) = q - count := by omega
    have next : d.slotsPerCluster * (row + 1) + 0 = q - count + (count - col) := by
      rw [Nat.mul_succ]
      omega
    rw [marked₂, marked₁, isD₁, slotsPerCluster_setData, start, next, markRange_markRange]
    congr 1
    omega
  · have goBack : count * 32 - 32 * col = 32 * (count - col) := by omega
    have size := d.clusterSize_eq
    have size₁ : d₁.clusterSize - 32 * (count - col) = 32 * (d.slotsPerCluster - (count - col)) := by
      change d.clusterSize - _ = _
      omega
    have fits : ¬ 32 * (count - col) > d₁.clusterSize := by
      change ¬ _ > d.clusterSize
      omega
    have first : 32 * col - count * 32 = 32 * 0 := by omega
    have number : (32 * col + 32 - 32 * 0) / 32 = col + 1 := by omega
    have third : 32 * (count - col) / 32 = count - col := by omega
    rw [current, indexOf, ← isCol] at val
    rw [removeEntry_eq names]
    simp only [current, indexOf, ← isCol, val, goBack, first, number, true_or, if_true, ← isD₁]
    rw [markPrevious, if_neg (by omega), if_neg fits, previous]
    simp only [size₁, third, show ¬ (0xe5 : UInt8) = 0x00 by decide, if_false, Option.bind_some]
    rfl

theorem cut_frees {f g : Fat} {last next : Nat} (link : f.getFatEntry last = next) (below : next < fatBadCluster)
    (cut : f.cutClusterChain last = some (.success, g)) :
    ∃ g', f.freeClusterChain next = some (.success, g') ∧ g = g'.setFatEntry last fatEoc := by
  have notEnd : ¬ next ≥ fatEoc := by
    simp only [fatBadCluster, fatEoc] at below ⊢
    omega
  rw [Fat.cutClusterChain, link, if_neg notEnd, if_neg below.ne] at cut
  obtain ⟨⟨err, g'⟩, freed, rest⟩ := Option.bind_eq_some_iff.mp cut
  simp only at rest
  split_ifs at rest with failed
  · rw [Option.pure_def, Option.some.injEq, Prod.mk.injEq] at rest
    exact absurd rest.1 failed
  · rw [Option.pure_def, Option.some.injEq, Prod.mk.injEq] at rest
    rw [not_not] at failed
    exact ⟨g', by rw [freed, failed], rest.2.symm⟩

/-- The first slots of the entry are at the end of the previous cluster, which becomes the last one. -/
theorem removeEntry_across_last (names : d.Names chain node q count) (volume : d.fat.Volume) (owns : Owns d.fat chain)
    (inside : q < d.slotsPerCluster * chain.length) (front : count ≤ q)
    (across : q % d.slotsPerCluster < count) (two : count ≤ q % d.slotsPerCluster + d.slotsPerCluster)
    (val : d.clearVal (d.clusterOf chain q) (d.indexOf q) = 0x00) (enough : chain.length ≤ fuel) (stack : Int → UInt8) :
    ∃ (d₂ : Disk) (row : Nat), q / d.slotsPerCluster = row + 1 ∧ Cuts d.fat d₂.fat chain (chain.take (row + 1)) ∧
      d₂.sectorsPerCluster = d.sectorsPerCluster ∧ (∀ c ∉ chain, d₂.data c = d.data c) ∧
      d₂.dirSlots (chain.take (row + 1)) = (markRange (q - count) (count - q % d.slotsPerCluster) 0x00 (d.dirSlots chain)).take
        (d.slotsPerCluster * (row + 1)) ∧
      d.fat32RemoveEntry fuel (chain.getD 0 0) node false stack =
        (d₂.fixEmptyEntries fuel (chain.getD 0 0) (d.clusterOf chain q)).map (RemoveErr.success, ·) := by
  have on := owns.dirChain volume
  obtain ⟨row, isRow, rowInside, split, small, current⟩ := across_row inside front across
  have previousInside : row < chain.length := Nat.lt_of_succ_lt rowInside
  set col := q % d.slotsPerCluster with isCol
  have marked := dirSlots_markSlots (d := d) on.nodup previousInside (d.slotsPerCluster - (count - col)) (count - col) (by omega) 0x00
  have previous : d.previousCluster (chain.getD (row + 1) 0) fuel (chain.getD 0 0) (chain.getD 0 0) = some (chain.getD row 0) :=
    previousCluster_eq on rowInside (Nat.zero_le _) (rowInside.trans_le enough)
  -- the clusters from the entry's on are freed, and the previous one ends the chain
  obtain ⟨g, cut, cuts⟩ := cutClusterChain_at volume owns previousInside
  have link : d.fat.getFatEntry (chain.getD row 0) = chain.getD (row + 1) 0 := by
    rw [List.getD_eq_getElem _ _ rowInside, List.getD_eq_getElem _ _ previousInside]
    exact (List.isChain_iff_getElem.mp on.linked row rowInside).1
  have below : chain.getD (row + 1) 0 < fatBadCluster := by
    rw [List.getD_eq_getElem _ _ rowInside]
    exact volume.below (owns.inUse _ (List.getElem_mem _)).data
  obtain ⟨g', freed, rfl⟩ := cut_frees link below cut
  set d₁ := d.setData (chain.getD row 0) (markSlots (d.data (chain.getD row 0)) (32 * (d.slotsPerCluster - (count - col)))
    (count - col) 0x00) with isD₁
  have start : d.slotsPerCluster * row + (d.slotsPerCluster - (count - col)) = q - count := by omega
  refine ⟨d₁.withFat (g'.setFatEntry (chain.getD row 0) fatEoc), row, isRow, cuts, rfl, fun c other => ?_, ?_, ?_⟩
  · refine Function.update_of_ne ?_ _ _
    rintro rfl
    rw [List.getD_eq_getElem _ _ previousInside] at other
    exact other (List.getElem_mem _)
  · rw [← start, ← marked]
    exact dirSlots_take _ _ _
  · have goBack : count * 32 - 32 * col = 32 * (count - col) := by omega
    have size := d.clusterSize_eq
    have size₁ : d.clusterSize - 32 * (count - col) = 32 * (d.slotsPerCluster - (count - col)) := by omega
    have behind : ¬ 32 * (count - col) = 0 := by omega
    have fits : ¬ 32 * (count - col) > d.clusterSize := by omega
    have third : 32 * (count - col) / 32 = count - col := by omega
    have freed₁ : d₁.freeChain (chain.getD (row + 1) 0) = some (d₁.withFat g') := by
      change (d.fat.freeClusterChain _).map _ = _
      rw [freed]
      rfl
    rw [current, indexOf, ← isCol] at val
    rw [removeEntry_eq names]
    simp only [current, indexOf, ← isCol, val, goBack, behind, show ¬ (0x00 : UInt8) = 0xe5 by decide, or_false, if_false]
    rw [markPrevious, if_neg behind, if_neg fits, previous]
    simp only [size₁, third, if_true, ← isD₁, freed₁]
    rfl

/-! ## The directory after the removal -/

theorem firstByte_items {front tail : List (List UInt8)} {i : Nat} (slots : d.dirSlots chain = front ++ tail)
    (before : i < front.length) : d.firstByte chain i = (front[i]).getD 0 0 :=
  firstByte_eq (by rw [slots, List.getElem?_append_left before, List.getElem?_eq_getElem before])

theorem LoneHole.congr {chain' : List Nat} (perCluster : d'.slotsPerCluster = d.slotsPerCluster)
    (same : ∀ i < p, d'.firstByte chain' i = d.firstByte chain i) (lone : d'.LoneHole chain' p) : d.LoneHole chain p := by
  obtain ⟨pos, first, hole, only⟩ := lone
  rw [perCluster] at first
  rw [same _ (by omega)] at hole
  exact ⟨pos, first, hole, fun more => by rw [← same _ (by omega)]; exact only more⟩

theorem fixEmptyEntries_directory {endCluster : Nat} {slot : List UInt8} {tail : List (List UInt8)} (volume : d.fat.Volume)
    (owns : Owns d.fat chain) (valid : ∀ item ∈ items, item.Valid)
    (slots : d.dirSlots chain = slotsOf items ++ slot :: tail) (free : slot.getD 0 0 = 0x00)
    (notLone : ¬ d.LoneHole chain (slotsOf items).length)
    (goes : ∀ j < (slotsOf items).length / d.slotsPerCluster, chain.getD j 0 ≠ endCluster) (enough : chain.length ≤ fuel) :
    ∃ d' chain' front holes, d.fixEmptyEntries fuel (chain.getD 0 0) endCluster = some d' ∧ d.Shrinks d' chain chain' ∧
      d'.Directory chain' front ∧ items = front ++ List.map Item.hole holes := by
  have length := congrArg List.length slots
  rw [length_dirSlots, List.length_append, List.length_cons] at length
  have mark : d.firstByte chain (slotsOf items).length = 0x00 := by
    rw [firstByte_eq (by rw [slots, List.getElem?_append_right le_rfl, Nat.sub_self]; rfl)]
    exact free
  have used : ∀ i < (slotsOf items).length, d.firstByte chain i ≠ 0x00 := by
    intro i before
    rw [firstByte_items slots before]
    exact used_slotsOf valid _ (List.getElem_mem _)
  obtain ⟨d', chain', done, shrinks, r, few, deleted, tail', left, stops⟩ := fixEmptyEntries_shrinks volume owns (by omega) used
    mark notLone goes enough
  obtain ⟨front, holes, same, frontSlots⟩ := holes_of_trailing valid few fun slot member => by
    obtain ⟨i, bound, rfl⟩ := List.getElem_of_mem member
    rw [List.length_drop] at bound
    rw [List.getElem_drop, ← firstByte_items slots (by omega)]
    exact deleted _ (by omega) (by omega)
  have on := shrinks.fat.owns.dirChain shrinks.fat.volume
  rw [slots, List.take_append_of_le_length (by omega), ← frontSlots] at left
  refine ⟨d', chain', front, holes, done, shrinks, ⟨on, shrinks.nonempty, fun item member => valid item ?_, tail', left, stops⟩,
    same⟩
  rw [same]
  exact List.mem_append_left _ member

theorem marked_first {slot : List UInt8} (used : slot.getD 0 0 ≠ 0x00) (val : UInt8) : (slot.set 0 val).getD 0 0 = val := by
  cases slot with
  | nil => exact absurd rfl used
  | cons b slot => rfl

section Directory
variable (dir : d.Directory chain (before ++ .file name long short :: after))
include dir

theorem Directory.split : ∃ tail, d.dirSlots chain = slotsOf before ++ (long ++ [short]) ++ (slotsOf after ++ tail) ∧ Stops tail := by
  obtain ⟨tail, slots, stops⟩ := dir.slots
  refine ⟨tail, ?_, stops⟩
  rw [slots, slotsOf_append, slotsOf_cons, Item.slots]
  simp only [List.append_assoc]

theorem Directory.group_used : ∀ slot ∈ long ++ [short], slot.getD 0 0 ≠ 0x00 := fun slot member =>
  (dir.valid (.file name long short) (by simp)).used slot member

theorem Directory.place_inside : (slotsOf before).length + long.length < d.slotsPerCluster * chain.length := by
  obtain ⟨tail, slots, -⟩ := dir.split
  have length := congrArg List.length slots
  simp only [length_dirSlots, List.length_append, List.length_singleton] at length
  omega

theorem Directory.clearVal_place : d.clearVal (d.clusterOf chain ((slotsOf before).length + long.length))
    (d.indexOf ((slotsOf before).length + long.length)) = if after = [] then 0x00 else 0xe5 := by
  obtain ⟨tail, slots, stops⟩ := dir.split
  have inside := dir.place_inside
  have pos : 0 < d.slotsPerCluster := Nat.pos_of_ne_zero fun zero => by simp [zero] at inside
  set q := (slotsOf before).length + long.length with isQ
  have behind : (d.dirSlots chain).drop (d.slotsPerCluster * (q / d.slotsPerCluster) + q % d.slotsPerCluster + 1) =
      slotsOf after ++ tail := by
    rw [Nat.div_add_mod, slots]
    refine List.drop_left' ?_
    rw [List.length_append, List.length_append, List.length_singleton]
    omega
  rw [clusterOf, indexOf, clearVal_eq dir.on (Nat.div_lt_of_lt_mul inside) (Nat.mod_lt q pos), behind]
  refine if_congr ⟨fun none => ?_, ?_⟩ rfl rfl
  · cases after with
    | nil => rfl
    | cons item after =>
        have valid := dir.valid item (by simp)
        obtain ⟨slot, more, isFirst⟩ : ∃ slot more, item.slots = slot :: more := by
          cases item with
          | hole slot => exact ⟨slot, [], rfl⟩
          | file name long short => exact List.exists_cons_of_ne_nil (List.append_ne_nil_of_right_ne_nil _ (List.cons_ne_nil _ _))
        refine absurd (none slot ?_) (valid.used slot (by rw [isFirst]; exact List.mem_cons_self))
        rw [slotsOf_cons, isFirst]
        rfl
  · rintro rfl
    exact stops

theorem Directory.marked (fat : d'.fat = d.fat)
    (slots : d'.dirSlots chain = markRange (slotsOf before).length (long.length + 1) 0xe5 (d.dirSlots chain)) :
    ∃ holes, d'.Directory chain (before ++ (List.map Item.hole holes ++ after)) ∧ holes.length = long.length + 1 := by
  obtain ⟨tail, old, stops⟩ := dir.split
  have count : (long ++ [short]).length = long.length + 1 := by rw [List.length_append, List.length_singleton]
  refine ⟨(long ++ [short]).map (List.set · 0 0xe5), ⟨dir.on.congr fat, dir.nonempty, fun item member => ?_, tail, ?_, stops⟩, ?_⟩
  · rcases List.mem_append.mp member with old | later
    · exact dir.valid item (List.mem_append_left _ old)
    · rcases List.mem_append.mp later with hole | old
      · obtain ⟨slot, marked, rfl⟩ := List.mem_map.mp hole
        obtain ⟨slot', member', rfl⟩ := List.mem_map.mp marked
        exact .hole (marked_first (dir.group_used slot' member') 0xe5)
      · exact dir.valid item (List.mem_append_right _ (List.mem_cons_of_mem _ old))
  · rw [slots, old, ← count, markRange_group, slotsOf_append, slotsOf_append, slotsOf_holes]
    simp only [List.append_assoc]
  · rw [List.length_map, count]

/-- The directory `d'` has, in `chain'`, the files of `d` but the one in question. -/
structure Loses (d d' : Disk) (chain chain' : List Nat) (before after : List Item) (p : Nat) : Prop where
  shrinks : d.Shrinks d' chain chain'
  directory : ∃ items, d'.Directory chain' items ∧ ∀ rootdirCluster, d'.filesFrom chain' rootdirCluster 0 items =
    d.filesFrom chain rootdirCluster 0 before ++ d.filesFrom chain rootdirCluster p after

omit dir in
theorem Shrinks.perCluster {chain' : List Nat} (shrinks : d.Shrinks d' chain chain') :
    d'.slotsPerCluster = d.slotsPerCluster := by
  rw [slotsPerCluster_eq, slotsPerCluster_eq, shrinks.sectors]

theorem Directory.ended {d₁ : Disk} {chain₁ : List Nat} {endCluster : Nat} {slot : List UInt8} {tail : List (List UInt8)}
    (last : after = []) (sectors : d₁.sectorsPerCluster = d.sectorsPerCluster) (others : ∀ c ∉ chain, d₁.data c = d.data c)
    (prefixed : chain₁ <+: chain) (cuts : Cuts d.fat d₁.fat chain chain₁)
    (slots : d₁.dirSlots chain₁ = slotsOf before ++ slot :: tail) (free : slot.getD 0 0 = 0x00)
    (notLone : ¬ d.LoneHole chain (slotsOf before).length)
    (goes : ∀ j < (slotsOf before).length / d.slotsPerCluster, chain₁.getD j 0 ≠ endCluster) (enough : chain.length ≤ fuel) :
    ∃ d' chain', d₁.fixEmptyEntries fuel (chain₁.getD 0 0) endCluster = some d' ∧
      d.Loses d' chain chain' before after ((slotsOf before).length + long.length + 1) := by
  obtain ⟨tail', old, -⟩ := dir.split
  have perCluster : d₁.slotsPerCluster = d.slotsPerCluster := by rw [slotsPerCluster_eq, slotsPerCluster_eq, sectors]
  have validBefore : ∀ item ∈ before, item.Valid := fun item member => dir.valid item (List.mem_append_left _ member)
  have notLone₁ : ¬ d₁.LoneHole chain₁ (slotsOf before).length := by
    refine fun lone => notLone (lone.congr perCluster fun i bound => ?_)
    rw [List.append_assoc] at old
    rw [firstByte_items slots bound, firstByte_items old bound]
  rw [← perCluster] at goes
  obtain ⟨d', chain', front, holes, done, shrinks, directory, same⟩ := fixEmptyEntries_directory cuts.volume cuts.owns validBefore
    slots free notLone₁ goes (prefixed.length_le.trans enough)
  refine ⟨d', chain', done, ⟨shrinks.front.trans prefixed, shrinks.nonempty, cuts.trans shrinks.fat prefixed,
    shrinks.sectors.trans sectors, fun c outside => ?_⟩, front, directory, fun rootdirCluster => ?_⟩
  · rw [shrinks.others c fun member => outside (prefixed.subset member), others c outside]
  · obtain ⟨tail₂, left, -⟩ := directory.slots
    have size : (slotsOf front).length ≤ d'.slotsPerCluster * chain'.length := by
      rw [← length_dirSlots, left, List.length_append]
      exact Nat.le_add_right _ _
    have clusters : ∀ q < (slotsOf front).length, d.clusterOf chain' q = d.clusterOf chain q := by
      intro q bound
      rw [shrinks.perCluster, perCluster] at size
      rw [clusterOf, clusterOf, getD_grown (shrinks.front.trans prefixed) (Nat.div_lt_of_lt_mul (bound.trans_le size))]
    rw [last, same, filesFrom_append, filesFrom_holes, List.append_nil, filesFrom, List.append_nil]
    exact filesFrom_congr (shrinks.perCluster.trans perCluster) clusters (Nat.zero_add _).le rootdirCluster

variable (volume : d.fat.Volume) (owns : Owns d.fat chain)
  (names : d.Names chain node ((slotsOf before).length + long.length) long.length)
include volume owns names

theorem Directory.removed_middle (some : after ≠ [])
    (two : long.length ≤ ((slotsOf before).length + long.length) % d.slotsPerCluster + d.slotsPerCluster)
    (enough : chain.length ≤ fuel) (stack : Int → UInt8) :
    ∃ d' chain', d.fat32RemoveEntry fuel (chain.getD 0 0) node false stack = .some (.success, d') ∧
      d.Loses d' chain chain' before after ((slotsOf before).length + long.length + 1) := by
  have inside := dir.place_inside
  have val := dir.clearVal_place
  rw [if_neg some] at val
  have place : (slotsOf before).length + long.length - long.length = (slotsOf before).length := Nat.add_sub_cancel _ _
  have answer : ∀ d' : Disk, d'.fat = d.fat → d'.sectorsPerCluster = d.sectorsPerCluster → (∀ c ∉ chain, d'.data c = d.data c) →
      d'.dirSlots chain = markRange ((slotsOf before).length + long.length - long.length) (long.length + 1) 0xe5
        (d.dirSlots chain) →
      d.Loses d' chain chain before after ((slotsOf before).length + long.length + 1) := by
    intro d' fat sectors others slots
    rw [place] at slots
    obtain ⟨holes, directory, count⟩ := dir.marked fat slots
    have perCluster : d'.slotsPerCluster = d.slotsPerCluster := by rw [slotsPerCluster_eq, slotsPerCluster_eq, sectors]
    refine ⟨⟨List.prefix_rfl, dir.nonempty, by rw [fat]; exact .refl volume owns, sectors, others⟩, _, directory,
      fun rootdirCluster => ?_⟩
    rw [filesFrom_append, filesFrom_append, filesFrom_holes, List.nil_append, slotsOf_holes, count, Nat.zero_add, ← Nat.add_assoc]
    have same : ∀ p (items : List Item), d'.filesFrom chain rootdirCluster p items = d.filesFrom chain rootdirCluster p items :=
      fun p items => filesFrom_congr perCluster (fun q _ => rfl) le_rfl rootdirCluster
    rw [same, same]
  by_cases within : long.length ≤ ((slotsOf before).length + long.length) % d.slotsPerCluster
  · obtain ⟨d₁, fat, sectors, others, slots, done⟩ := removeEntry_within names dir.on inside within fuel (chain.getD 0 0) stack
    rw [val] at slots done
    exact ⟨d₁, chain, done, answer d₁ fat sectors others slots⟩
  · obtain ⟨d₂, fat, sectors, others, slots, done⟩ := removeEntry_across names dir.on inside (Nat.le_add_left _ _)
      (not_le.mp within) two val enough stack
    exact ⟨d₂, chain, done, answer d₂ fat sectors others slots⟩

theorem Directory.removed_last (last : after = [])
    (two : long.length ≤ ((slotsOf before).length + long.length) % d.slotsPerCluster + d.slotsPerCluster)
    (notLone : ¬ d.LoneHole chain (slotsOf before).length) (enough : chain.length ≤ fuel) (stack : Int → UInt8) :
    ∃ d' chain', d.fat32RemoveEntry fuel (chain.getD 0 0) node false stack = some (.success, d') ∧
      d.Loses d' chain chain' before after ((slotsOf before).length + long.length + 1) := by
  have inside := dir.place_inside
  have val := dir.clearVal_place
  rw [if_pos last] at val
  obtain ⟨tail, old, -⟩ := dir.split
  have pos : 0 < d.slotsPerCluster := Nat.pos_of_ne_zero fun zero => by simp [zero] at inside
  have place : (slotsOf before).length + long.length - long.length = (slotsOf before).length := Nat.add_sub_cancel _ _
  obtain ⟨first, group, isGroup⟩ := List.exists_cons_of_ne_nil (List.append_ne_nil_of_right_ne_nil long (List.cons_ne_nil short []))
  have free : (first.set 0 0x00).getD 0 0 = 0x00 :=
    marked_first (dir.group_used first (by rw [isGroup]; exact List.mem_cons_self)) 0x00
  have rowInside := Nat.div_lt_of_lt_mul inside
  have other : ∀ j < ((slotsOf before).length + long.length) / d.slotsPerCluster,
      chain.getD j 0 ≠ d.clusterOf chain ((slotsOf before).length + long.length) := by
    intro j bound
    rw [clusterOf, List.getD_eq_getElem _ _ rowInside, List.getD_eq_getElem _ _ (bound.trans rowInside)]
    exact fun same => bound.ne (dir.on.nodup.getElem_inj_iff.mp same)
  have rows : (slotsOf before).length / d.slotsPerCluster ≤ ((slotsOf before).length + long.length) / d.slotsPerCluster :=
    Nat.div_le_div_right (Nat.le_add_right _ _)
  by_cases within : long.length ≤ ((slotsOf before).length + long.length) % d.slotsPerCluster
  · obtain ⟨d₁, fat, sectors, others, slots, done⟩ := removeEntry_within names dir.on inside within fuel (chain.getD 0 0) stack
    have count : (long ++ [short]).length = long.length + 1 := by rw [List.length_append, List.length_singleton]
    rw [val, place, old, ← count, markRange_group, isGroup, List.map_cons, List.append_assoc, List.cons_append] at slots
    rw [val, if_pos rfl] at done
    obtain ⟨d', chain', fixed, loses⟩ := dir.ended last sectors others List.prefix_rfl (by rw [fat]; exact .refl volume owns)
      slots free notLone (fun j bound => other j (bound.trans_le rows)) enough
    exact ⟨d', chain', by rw [done, fixed]; rfl, loses⟩
  · obtain ⟨d₂, row, isRow, cuts, sectors, others, slots, done⟩ := removeEntry_across_last names volume owns inside
      (Nat.le_add_left _ _) (not_le.mp within) two val enough stack
    have split := Nat.div_add_mod ((slotsOf before).length + long.length) d.slotsPerCluster
    rw [isRow] at split
    set col := ((slotsOf before).length + long.length) % d.slotsPerCluster with isCol
    obtain ⟨k, isCount⟩ := Nat.exists_eq_add_one.mpr (Nat.sub_pos_of_lt (not_le.mp within))
    have few : k + 1 ≤ (long ++ [short]).length := by
      rw [List.length_append, List.length_singleton]
      omega
    -- what is left of the entry ends the previous cluster
    have front : (long ++ [short]).take (k + 1) = first :: group.take k := by rw [isGroup, List.take_succ_cons]
    have count : ((long ++ [short]).take (k + 1)).length = k + 1 := List.length_take_of_le few
    have regroup : ∀ l more : List (List UInt8), slotsOf before ++ l ++ more =
        slotsOf before ++ l.take (k + 1) ++ (l.drop (k + 1) ++ more) := by
      intro l more
      rw [List.append_assoc _ (l.take _), ← List.append_assoc (l.take _), List.take_append_drop, ← List.append_assoc]
    have marked := markRange_group (slotsOf before) ((long ++ [short]).take (k + 1))
      ((long ++ [short]).drop (k + 1) ++ (slotsOf after ++ tail)) 0x00
    rw [count] at marked
    rw [place, isCount, old, regroup, marked, List.take_left' (by rw [List.length_append, List.length_map, count]; omega), front,
      List.map_cons] at slots
    have prefixed : chain.take (row + 1) <+: chain := List.take_prefix _ _
    have start : (chain.take (row + 1)).getD 0 0 = chain.getD 0 0 := by
      obtain ⟨c, cs, rfl⟩ := List.exists_cons_of_ne_nil dir.nonempty
      rfl
    have goes : ∀ j < (slotsOf before).length / d.slotsPerCluster, (chain.take (row + 1)).getD j 0 ≠
        d.clusterOf chain ((slotsOf before).length + long.length) := by
      intro j bound
      have early : j < row + 1 := by
        rw [← isRow]
        exact bound.trans_le rows
      have kept : (chain.take (row + 1)).getD j 0 = chain.getD j 0 := by
        rw [List.getD_eq_getElem?_getD, List.getElem?_take_of_lt early, ← List.getD_eq_getElem?_getD]
      rw [kept]
      exact other j (bound.trans_le rows)
    obtain ⟨d', chain', fixed, loses⟩ := dir.ended last sectors others prefixed cuts slots free notLone goes enough
    rw [start] at fixed
    exact ⟨d', chain', by rw [done, fixed]; rfl, loses⟩

theorem Directory.removed (two : long.length ≤ ((slotsOf before).length + long.length) % d.slotsPerCluster + d.slotsPerCluster)
    (notLone : after = [] → ¬ d.LoneHole chain (slotsOf before).length) (enough : chain.length ≤ fuel) (stack : Int → UInt8) :
    ∃ d' chain', d.fat32RemoveEntry fuel (chain.getD 0 0) node false stack = some (.success, d') ∧
      d.Loses d' chain chain' before after ((slotsOf before).length + long.length + 1) := by
  by_cases last : after = []
  · exact dir.removed_last volume owns names last two (notLone last) enough stack
  · exact dir.removed_middle volume owns names last two enough stack

end Directory

theorem freeClusterChain_cuts {f : Fat} {content : List Nat} {start : Nat} (volume : f.Volume) (owns : Owns f content)
    (head : content.head? = some start) : ∃ g, f.freeClusterChain start = some (.success, g) ∧ Cuts f g content [] := by
  obtain ⟨hint, low, done⟩ := Fat.freeClusterChain_spec volume head owns.links owns.inUse
  have total := Fat.totalClusters_clear f content
  refine ⟨_, done, ⟨⟨?_, low⟩, total, ⟨rfl, fun c member => (by cases member)⟩, fun c outside => Fat.entry_clear f outside,
    fun c member _ => Fat.getFatEntry_clear f member⟩⟩
  rw [Fat.totalClusters_withFsinfo, total]
  exact volume.fits

theorem removeEntry_content {g : Fat} (names : d.Names chain node q count) (freed : d.fat.freeClusterChain node.startCluster.toNat =
      some (.success, g)) (same : g.entry (d.clusterOf chain q) = d.fat.entry (d.clusterOf chain q)) (stack : Int → UInt8)
    (passes : fsNodeType node.flags = fsNodeTypeDirectory →
      passesEmptinessCheck (d.data node.startCluster.toNat) stack (d.slotCount 0) 0 = true) (start : Nat) :
    d.fat32RemoveEntry fuel start node true stack = (d.withFat g).fat32RemoveEntry fuel start node false stack := by
  have allowed : ¬ (fsNodeType node.flags = fsNodeTypeDirectory ∧ True ∧
      ¬ passesEmptinessCheck (d.data node.startCluster.toNat) stack (d.slotCount 0) 0 = true) :=
    fun ⟨isDir, _, refused⟩ => refused (passes isDir)
  have val : (d.withFat g).clearVal node.parentCluster node.parentClusterIndex =
      d.clearVal node.parentCluster node.parentClusterIndex := by
    have next : (d.withFat g).fat.getFatEntry (d.clusterOf chain q) = d.fat.getFatEntry (d.clusterOf chain q) :=
      Fat.getFatEntry_congr same
    rw [names.cluster, clearVal, clearVal, next]
    rfl
  have done : d.freeChain node.startCluster.toNat = some (d.withFat g) := by
    rw [freeChain, freed]
    rfl
  simp only [fat32RemoveEntry, allowed, if_false, Bool.false_eq_true, false_and, and_false, if_true, done, val, Option.bind_eq_bind,
    Option.bind_some]
  rfl

theorem Directory.items_few (dir : d.Directory chain items) : items.length ≤ d.slotsPerCluster * chain.length := by
  obtain ⟨tail, slots, -⟩ := dir.slots
  have length := congrArg List.length slots
  rw [length_dirSlots, List.length_append] at length
  have := length_items_le items
  omega

theorem Loses.listing {chain' : List Nat} (loses : d.Loses d' chain chain' before after p) (sized : d.Sized)
    (enough : d.slotsPerCluster * chain.length < fuel) (rootdirCluster : UInt32) (stale : Nat → Stale) :
    d'.listDirectory rootdirCluster fuel stale (chain.getD 0 0) =
      some (d.filesFrom chain rootdirCluster 0 before ++ d.filesFrom chain rootdirCluster p after) := by
  obtain ⟨items, directory, files⟩ := loses.directory
  have slots := sized.slots
  have shorter := loses.shrinks.front.length_le
  have fewer : d.slotsPerCluster * chain'.length ≤ d.slotsPerCluster * chain.length := Nat.mul_le_mul_left _ shorter
  have few := directory.items_few
  have clusters : chain'.length ≤ d.slotsPerCluster * chain'.length := Nat.le_mul_of_pos_left _ (by omega)
  rw [loses.shrinks.perCluster] at few
  have start : chain'.getD 0 0 = chain.getD 0 0 :=
    (getD_grown loses.shrinks.front (List.length_pos_iff.mpr loses.shrinks.nonempty)).symm
  rw [← files, ← start]
  exact directory.list (sized.congr loses.shrinks.sectors) (by omega) (by omega) rootdirCluster stale

/-- With or without its content, an entry with its slots in two clusters at most leaves the listing and nothing else does,
unless it is the last one and a lone deleted slot ends the cluster in front of it. -/
theorem removal_exact {removeContent : Bool} {content : List Nat} {rest : List (List Nat)} {fuel' : Nat} (sized : d.Sized)
    (volume : d.fat.Volume) (part : d.fat.Partition (chain :: content :: rest))
    (dir : d.Directory chain (before ++ .file name long short :: after))
    (names : d.Names chain node ((slotsOf before).length + long.length) long.length)
    (head : content.head? = some node.startCluster.toNat) (stack : Int → UInt8)
    (passes : fsNodeType node.flags = fsNodeTypeDirectory → removeContent = true →
      passesEmptinessCheck (d.data node.startCluster.toNat) stack (d.slotCount 0) 0 = true)
    (two : long.length ≤ ((slotsOf before).length + long.length) % d.slotsPerCluster + d.slotsPerCluster)
    (notLone : after = [] → ¬ d.LoneHole chain (slotsOf before).length) (enough : chain.length ≤ fuel)
    (enough' : d.slotsPerCluster * chain.length < fuel') (rootdirCluster : UInt32) (stale stale' : Nat → Stale) :
    ∃ d' chain' entry left right, d.fat32RemoveEntry fuel (chain.getD 0 0) node removeContent stack = some (.success, d') ∧
      chain' <+: chain ∧ d'.fat.Partition (chain' :: if removeContent then rest else content :: rest) ∧
      (∀ c ∉ chain, d'.data c = d.data c) ∧
      d.listDirectory rootdirCluster fuel' stale (chain.getD 0 0) = some (left ++ entry :: right) ∧
      entry.parentCluster = node.parentCluster ∧ entry.parentClusterIndex = node.parentClusterIndex ∧
      d'.listDirectory rootdirCluster fuel' stale' (chain.getD 0 0) = some (left ++ right) := by
  have slots := sized.slots
  have clusters : chain.length ≤ d.slotsPerCluster * chain.length := Nat.le_mul_of_pos_left _ (by omega)
  have few := dir.items_few
  have listed := dir.list sized (clusters.trans enough'.le) (by omega) rootdirCluster stale
  rw [filesFrom_append, filesFrom, Nat.zero_add] at listed
  have owns : Owns d.fat chain := ⟨part.links _ List.mem_cons_self, fun c member => part.member member⟩
  cases removeContent with
  | false =>
      obtain ⟨d', chain', done, loses⟩ := dir.removed volume owns names two notLone enough stack
      exact ⟨d', chain', _, _, _, done, loses.shrinks.front, loses.shrinks.fat.partition loses.shrinks.front part,
        loses.shrinks.others, listed, names.cluster.symm, names.index.symm, loses.listing sized enough' rootdirCluster stale'⟩
  | true =>
      -- the content's clusters are freed first
      have swapped := part.perm (List.Perm.swap content chain rest)
      obtain ⟨g, freed, cuts⟩ := freeClusterChain_cuts volume ⟨swapped.links _ List.mem_cons_self, fun c => swapped.member⟩ head
      have apart : ∀ c ∈ chain, c ∉ content := fun c member inContent =>
        (List.nodup_append'.mp part.nodup).2.2 member (List.mem_flatten_of_mem List.mem_cons_self inContent)
      have kept : ∀ c ∈ chain, g.entry c = d.fat.entry c := fun c member => cuts.entries c (apart c member)
      have owns' : Owns g chain := ⟨owns.links.congr fun c member => Fat.link_congr (kept c member),
        fun c member => (owns.inUse c member).congr cuts.total (kept c member)⟩
      have part' : g.Partition (chain :: rest) := by
        have part' := (cuts.partition List.nil_prefix swapped)
        exact ⟨fun l member => part'.links l (List.mem_cons_of_mem _ member), part'.nodup, part'.covers⟩
      have dir' : (d.withFat g).Directory chain (before ++ .file name long short :: after) :=
        ⟨dir.on.kept kept, dir.nonempty, dir.valid, dir.slots⟩
      obtain ⟨d', chain', done, loses⟩ := dir'.removed cuts.volume owns' ⟨names.cluster, names.index, names.counts⟩ two notLone enough
        stack
      have same : g.entry (d.clusterOf chain ((slotsOf before).length + long.length)) =
          d.fat.entry (d.clusterOf chain ((slotsOf before).length + long.length)) := kept _ (clusterOf_mem dir.place_inside)
      rw [← removeEntry_content names freed same stack (fun isDir => passes isDir rfl)] at done
      have listed' := loses.listing ⟨sized.sectors, sized.byte⟩ enough' rootdirCluster stale'
      have perCluster : (d.withFat g).slotsPerCluster = d.slotsPerCluster := rfl
      have files : ∀ p items, (d.withFat g).filesFrom chain rootdirCluster p items = d.filesFrom chain rootdirCluster p items :=
        fun p items => filesFrom_congr perCluster (fun q _ => rfl) le_rfl rootdirCluster
      rw [files, files] at listed'
      exact ⟨d', chain', _, _, _, done, loses.shrinks.front, loses.shrinks.fat.partition loses.shrinks.front part',
        loses.shrinks.others, listed, names.cluster.symm, names.index.symm, listed'⟩

-- `NOTES`, a file in cluster 3
def shortSlot : List UInt8 :=
  [0x4e, 0x4f, 0x54, 0x45, 0x53, 0x20, 0x20, 0x20, 0x20, 0x20, 0x20, 0x20] ++ List.replicate 14 0 ++ [3, 0, 10, 0, 0, 0]

def shortVolume : Disk :=
  ⟨⟨fun c => if c = 2 ∨ c = 3 then BitVec.ofNat 32 fatEoc else 0, 2, 2, 0⟩, 1, fun c i => if c = 2 then shortSlot.getD i 0 else 0⟩

def shortNode : FsNode :=
  { blankNode with name := patch blankNode.name 0 [0x4e, 0x4f, 0x54, 0x45, 0x53], startCluster := 3, parentCluster := 2 }

theorem shortVolume_partition : shortVolume.fat.Partition [[2], [3]] := by
  refine ⟨?_, by decide, fun c => ?_⟩
  · have two : shortVolume.fat.link 2 = none := by decide
    have three : shortVolume.fat.link 3 = none := by decide
    simpa using ⟨two, three⟩
  · have entry : c ≠ 2 → c ≠ 3 → shortVolume.fat.getFatEntry c = 0 := by
      intro two three
      have zero : shortVolume.fat.entry c = 0 := if_neg (not_or.mpr ⟨two, three⟩)
      rw [Fat.getFatEntry, zero]
      rfl
    constructor
    · intro member
      have both : c = 2 ∨ c = 3 := by simpa using member
      rcases both with rfl | rfl
      · exact ⟨⟨by decide, by decide⟩, by decide, by decide⟩
      · exact ⟨⟨by decide, by decide⟩, by decide, by decide⟩
    · intro used
      by_contra outside
      have neither : c ≠ 2 ∧ c ≠ 3 := by simpa using outside
      exact used.notFree (entry neither.1 neither.2)

theorem shortVolume_directory :
    shortVolume.Directory [2] ([] ++ .file (sfnText (.ofBytes shortSlot)) [] shortSlot :: []) := by
  have owns : Owns shortVolume.fat [2] :=
    ⟨shortVolume_partition.links _ List.mem_cons_self, fun c member => shortVolume_partition.member member⟩
  refine ⟨owns.dirChain ⟨by decide, by decide⟩, by decide, ?_, (shortVolume.dirSlots [2]).drop 1, ?_, ?_⟩
  · intro item member
    rw [List.mem_singleton.mp member]
    exact .file ⟨by decide, by decide, by decide⟩ (.short (by decide +kernel))
  · have first : (shortVolume.dirSlots [2]).take 1 = [shortSlot] := by decide
    exact (List.take_append_drop 1 _).symm.trans (congrArg (· ++ _) first)
  · intro slot head
    have second : ((shortVolume.dirSlots [2]).drop 1).head? = some (List.replicate 32 0) := by decide
    cases second.symm.trans head
    rfl

theorem removal_exact_notes : ∃ d' chain' entry left right,
    shortVolume.fat32RemoveEntry 1 2 shortNode true (fun _ => 0) = some (.success, d') ∧ chain' <+: [2] ∧
      d'.fat.Partition [chain'] ∧ (∀ c ∉ [2], d'.data c = shortVolume.data c) ∧
      shortVolume.listDirectory 2 17 noStale 2 = some (left ++ entry :: right) ∧ entry.parentCluster = 2 ∧
      entry.parentClusterIndex = 0 ∧ d'.listDirectory 2 17 noStale 2 = some (left ++ right) :=
  removal_exact ⟨by decide, by decide⟩ ⟨by decide, by decide⟩ shortVolume_partition shortVolume_directory
    ⟨by decide, by decide, by decide +kernel⟩ rfl (fun _ => 0) (fun isDir => absurd isDir (by decide)) (by decide)
    (fun _ lone => absurd lone.1 (by decide)) (by decide) (by decide) 2 noStale noStale

end Disk
end Kerosene.Fat32
