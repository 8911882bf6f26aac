import Kerosene.Fat32.Insertion
import Mathlib.Data.List.GetD

/-!
# `fat32_remove_entry`

An entry is removed by a mark in the first byte of each of its slots. Where nothing is behind it the mark is that
of slots never used, and `fix_empty_entries` takes back the deleted slots and the clusters at the end of the directory.
-/

namespace Kerosene.Fat32
open Lib
open Ramfs (Name fsNodeType fsNodeTypeDirectory)
open Ramfs.Heap (dot dotdot)

inductive RemoveErr
  | success
  | dirNotEmpty
deriving DecidableEq

-- `!strcmp(entry_name, name)`
def sameText (entryName : Int → UInt8) : (i : Nat) → Name → Bool
  | i, [] => entryName i = 0
  | i, c :: name => entryName i = c && sameText entryName (i + 1) name

-- The check of the first cluster of a directory: no slot but those of `.` and `..` before the end mark.
def passesEmptinessCheck (directory : Bytes) (entryName : Int → UInt8) : (slots : Nat) → (i : Nat) → Bool
  | 0, _ => true
  | slots + 1, i =>
      if directory i = 0x00 then true
      else if directory i = 0xe5 then false
      else if directory (i + 11) = 0x0f then false
      else
        let s := (Decoder.start entryName).processSfnEntry (.ofBytes (slotAt directory i))
        if sameText s.entryName 0 dot || sameText s.entryName 0 dotdot then
          passesEmptinessCheck directory s.entryName slots (i + 32)
        else false

-- the first byte of each of `count` slots from `start` on
def markSlots (directory : Bytes) (start count : Nat) (val : UInt8) : Bytes :=
  fun i => if start ≤ i ∧ i < start + 32 * count ∧ (i - start) % 32 = 0 then val else directory i

-- `trash_start_cluster` and `cluster_count`, which counts slots
structure Trash where
  startCluster : Nat
  clusterCount : Nat

namespace Trash

def pass (t : Trash) (current : Nat) (first : UInt8) : Trash :=
  if first = 0xe5 then
    if t.startCluster = 0 then ⟨current, 1⟩ else { t with clusterCount := t.clusterCount + 1 }
  else { t with startCluster := 0 }

-- a pass through the slots of a cluster, and whether it met the end mark
def scan (directory : Bytes) (current : Nat) : (slots : Nat) → (i : Nat) → Trash → Bool × Trash
  | 0, _, t => (false, t)
  | slots + 1, i, t =>
      if directory i = 0x00 then (true, t) else scan directory current slots (i + 32) (t.pass current (directory i))

end Trash

-- From the end of the buffer, deleted slots become slots never used, up to one that is in use.
def clearTail : (slots : Nat) → Bytes → Bytes
  | 0, directory => directory
  | slots + 1, directory =>
      if directory (32 * slots) ≠ 0x00 ∧ directory (32 * slots) ≠ 0xe5 then directory
      else clearTail slots (Function.update directory (32 * slots) 0x00)

namespace Disk

-- The search for the end mark: the cluster that has it, and the deleted slots in front of it. The outer `none`
-- is a search that does not end within `fuel` clusters, the inner one a return at `end_cluster`.
def findTrash (d : Disk) (endCluster : Nat) : (fuel : Nat) → (current : Nat) → Trash → Option (Option (Nat × Trash))
  | 0, _, _ => none
  | fuel + 1, current, t =>
      match Trash.scan (d.data current) current (d.slotCount 0) 0 t with
      | (true, t) => some (some (current, t))
      | (false, t) =>
          if current = endCluster then some none
          else findTrash d endCluster fuel (d.fat.getFatEntry current) t

def fixEmptyEntries (d : Disk) (fuel startCluster endCluster : Nat) : Option Disk :=
  match d.findTrash endCluster fuel startCluster ⟨0, 0⟩ with
  | none => none
  | some none => some d
  | some (some (current, t)) =>
      if t.startCluster = 0 then some d
      else if t.clusterCount > 1 then
        (d.fat.cutClusterChain t.startCluster).map fun (_, fat) =>
          (d.withFat fat).setData t.startCluster (clearTail (d.slotCount 0) (d.data t.startCluster))
      -- the buffer still holds the cluster of the end mark
      else some (d.setData t.startCluster (clearTail (d.slotCount 0) (d.data current)))

-- Whether anything is behind the entry: the mark of its slots.
def clearVal (d : Disk) (current index : Nat) : UInt8 :=
  if index + 32 < d.clusterSize then if d.data current (index + 32) = 0x00 then 0x00 else 0xe5
  else
    let val := d.fat.getFatEntry current
    if val ≥ fatEoc ∨ val = fatBadCluster then 0x00
    else if d.data val 0 = 0x00 then 0x00
    else 0xe5

def freeChain (d : Disk) (startCluster : Nat) : Option Disk :=
  (d.fat.freeClusterChain startCluster).map fun (_, fat) => d.withFat fat

-- the cluster in front of `current`
def previousCluster (d : Disk) (current : Nat) : (fuel : Nat) → (last val : Nat) → Option Nat
  | 0, _, _ => none
  | fuel + 1, last, val => if val ≠ current then previousCluster d current fuel val (d.fat.getFatEntry val) else some last

-- The slots that are in the previous cluster. `none` also where they start before it does: the code writes in front
-- of its buffer there.
def markPrevious (d : Disk) (fuel parentStart current goBack : Nat) (val : UInt8) : Option Disk :=
  if goBack = 0 then some d
  else if goBack > d.clusterSize then none
  else
    match d.previousCluster current fuel parentStart parentStart with
    | none => none
    | some last =>
        let d := d.setData last (markSlots (d.data last) (d.clusterSize - goBack) (goBack / 32) val)
        if val = 0x00 then (d.freeChain current).map fun d => d.withFat (d.fat.setFatEntry last fatEoc) else some d

def fat32RemoveEntry (d : Disk) (fuel parentStart : Nat) (node : FsNode) (removeContent : Bool) (stack : Int → UInt8) :
    Option (RemoveErr × Disk) :=
  let first := node.startCluster.toNat
  if fsNodeType node.flags = fsNodeTypeDirectory ∧ removeContent ∧
      ¬ passesEmptinessCheck (d.data first) stack (d.slotCount 0) 0 then some (.dirNotEmpty, d)
  else do
    let name := cString node.name
    let lfnEntryCount := if isValidSfn name then 0 else (name.length + 12) / 13
    let current := node.parentCluster
    let index := node.parentClusterIndex
    let val := d.clearVal current index
    let directory := d.data current
    let d ← if removeContent then d.freeChain first else some d
    -- both are at least 0 in the code, which takes `start_index` up to 0
    let startIndex := index - lfnEntryCount * 32
    let goBack := lfnEntryCount * 32 - index
    let entryCnt := (index + 32 - startIndex) / 32
    let d := if val = 0xe5 ∨ goBack = 0 then d.setData current (markSlots directory startIndex entryCnt val) else d
    let d ← d.markPrevious fuel parentStart current goBack val
    let d ← if val = 0x00 then d.fixEmptyEntries fuel parentStart current else some d
    return (.success, d)

/-! ## Marks -/

variable {d : Disk} {chain : List Nat} {i n p : Nat} {val : UInt8}

theorem getElem?_dirSlots (d : Disk) (inside : i < d.slotsPerCluster * chain.length) :
    (d.dirSlots chain)[i]? = some (slotAt (d.data (d.clusterOf chain i)) (d.indexOf i)) := by
  induction chain generalizing i with
  | nil => cases inside
  | cons c chain ih =>
      rw [List.length_cons, Nat.mul_succ] at inside
      have pos : 0 < d.slotsPerCluster := by
        refine Nat.pos_of_ne_zero fun zero => ?_
        rw [zero] at inside
        omega
      rw [dirSlots_cons]
      by_cases first : i < d.slotsPerCluster
      · rw [List.getElem?_append_left (by rwa [length_clusterSlots]), clusterSlots, slotsFrom, List.getElem?_map,
          List.getElem?_range first, Option.map_some, clusterOf, indexOf, Nat.div_eq_of_lt first, Nat.mod_eq_of_lt first,
          Nat.zero_add]
        rfl
      · obtain ⟨j, rfl⟩ := Nat.exists_eq_add_of_le (not_lt.mp first)
        rw [List.getElem?_append_right (by rw [length_clusterSlots]; omega), length_clusterSlots, Nat.add_sub_cancel_left,
          ih (by omega), clusterOf, clusterOf, indexOf, indexOf, Nat.add_mod_left, Nat.add_div_left j pos]
        rfl

/-- The slots `p` to `p + n` with another first byte. -/
def markRange (p n : Nat) (val : UInt8) (slots : List (List UInt8)) : List (List UInt8) :=
  slots.mapIdx fun i slot => if p ≤ i ∧ i < p + n then slot.set 0 val else slot

theorem markRange_group (before group behind : List (List UInt8)) (val : UInt8) :
    markRange before.length group.length val (before ++ group ++ behind) =
      before ++ group.map (List.set · 0 val) ++ behind := by
  apply List.ext_getElem?
  intro i
  rw [markRange, List.getElem?_mapIdx]
  by_cases front : i < before.length
  · rw [List.append_assoc, List.append_assoc, List.getElem?_append_left front, List.getElem?_append_left front,
      List.getElem?_eq_getElem front, Option.map_some, if_neg (by omega)]
  · by_cases back : i < before.length + group.length
    · have inside : i - before.length < group.length := by omega
      have here : before.length ≤ i ∧ i < before.length + group.length := ⟨not_lt.mp front, back⟩
      rw [List.append_assoc, List.append_assoc, List.getElem?_append_right here.1, List.getElem?_append_right here.1,
        List.getElem?_append_left inside, List.getElem?_append_left (by rwa [List.length_map]), List.getElem?_map,
        List.getElem?_eq_getElem inside, Option.map_some, Option.map_some, if_pos here]
    · rw [List.getElem?_append_right (by rw [List.length_append]; omega),
        List.getElem?_append_right (by rw [List.length_append, List.length_map]; omega), List.length_append,
        List.length_append, List.length_map]
      cases behind[i - (before.length + group.length)]? with
      | none => rfl
      | some slot => rw [Option.map_some, if_neg (by omega)]

theorem markRange_markRange (p n m : Nat) (val : UInt8) (slots : List (List UInt8)) :
    markRange p n val (markRange (p + n) m val slots) = markRange p (n + m) val slots := by
  apply List.ext_getElem?
  intro i
  rw [markRange, markRange, markRange, List.getElem?_mapIdx, List.getElem?_mapIdx, List.getElem?_mapIdx, Option.map_map]
  congr 1
  funext slot
  simp only [Function.comp_apply]
  split_ifs <;> first | rfl | omega

theorem slotAt_markSlots (directory : Bytes) (s n j : Nat) (val : UInt8) :
    slotAt (markSlots directory (32 * s) n val) (32 * j) =
      if s ≤ j ∧ j < s + n then (slotAt directory (32 * j)).set 0 val else slotAt directory (32 * j) := by
  have byte : ∀ k < 32, markSlots directory (32 * s) n val (32 * j + k) =
      if (s ≤ j ∧ j < s + n) ∧ k = 0 then val else directory (32 * j + k) := by
    intro k small
    rw [markSlots]
    refine if_congr ?_ rfl rfl
    omega
  apply List.ext_getElem
  · split_ifs <;> simp [length_slotAt]
  · intro k inside _
    rw [length_slotAt] at inside
    have written : ∀ inBounds, (slotAt (markSlots directory (32 * s) n val) (32 * j)).get ⟨k, inBounds⟩ =
        markSlots directory (32 * s) n val (32 * j + k) := by
      intro inBounds
      simp [slotAt]
    refine (written _).trans ?_
    rw [byte k inside]
    by_cases here : s ≤ j ∧ j < s + n
    · cases k with
      | zero => simp [here]
      | succ k => simp [here, slotAt]
    · simp [here, slotAt]

theorem dirSlots_markSlots {row : Nat} (nodup : chain.Nodup) (inside : row < chain.length) (col n : Nat)
    (whole : col + n ≤ d.slotsPerCluster) (val : UInt8) :
    (d.setData (chain.getD row 0) (markSlots (d.data (chain.getD row 0)) (32 * col) n val)).dirSlots chain =
      markRange (d.slotsPerCluster * row + col) n val (d.dirSlots chain) := by
  set d' := d.setData (chain.getD row 0) (markSlots (d.data (chain.getD row 0)) (32 * col) n val) with marked
  apply List.ext_getElem?
  intro i
  rw [markRange, List.getElem?_mapIdx]
  by_cases within : i < d.slotsPerCluster * chain.length
  · have split := Nat.div_add_mod i d.slotsPerCluster
    have pos : 0 < d.slotsPerCluster := Nat.pos_of_ne_zero fun zero => by simp [zero] at within
    have small := Nat.mod_lt i pos
    have place : d'.clusterOf chain i = d.clusterOf chain i ∧ d'.indexOf i = d.indexOf i := ⟨rfl, rfl⟩
    rw [getElem?_dirSlots d' within, getElem?_dirSlots d within, Option.map_some, place.1, place.2]
    by_cases same : i / d.slotsPerCluster = row
    · have cluster : d.clusterOf chain i = chain.getD row 0 := by rw [clusterOf, same]
      have data : d'.data (chain.getD row 0) = markSlots (d.data (chain.getD row 0)) (32 * col) n val := Function.update_self _ _ _
      rw [cluster, data, indexOf, slotAt_markSlots]
      rw [same] at split
      congr 1
      refine if_congr ?_ rfl rfl
      omega
    · have other : d.clusterOf chain i ≠ chain.getD row 0 := by
        rw [clusterOf, List.getD_eq_getElem?_getD, List.getD_eq_getElem?_getD,
          List.getElem?_eq_getElem (Nat.div_lt_of_lt_mul within), List.getElem?_eq_getElem inside]
        exact fun both => same ((nodup.getElem_inj_iff).mp both)
      have data : d'.data (d.clusterOf chain i) = d.data (d.clusterOf chain i) := Function.update_of_ne other _ _
      have outside : ¬ (d.slotsPerCluster * row + col ≤ i ∧ i < d.slotsPerCluster * row + col + n) := by
        rintro ⟨above, below⟩
        refine same (le_antisymm (Nat.le_of_lt_succ (Nat.div_lt_of_lt_mul ?_)) ((Nat.le_div_iff_mul_le pos).mpr ?_))
        · rw [Nat.mul_succ]
          omega
        · rw [Nat.mul_comm]
          omega
      rw [data, if_neg outside]
  · have left : (d'.dirSlots chain)[i]? = none := by
      rw [List.getElem?_eq_none_iff, length_dirSlots]
      exact not_lt.mp within
    have right : (d.dirSlots chain)[i]? = none := by
      rw [List.getElem?_eq_none_iff, length_dirSlots]
      exact not_lt.mp within
    rw [left, right, Option.map_none]

theorem dirSlots_take (d : Disk) (chain : List Nat) (j : Nat) :
    d.dirSlots (chain.take j) = (d.dirSlots chain).take (d.slotsPerCluster * j) := by
  induction j generalizing chain with
  | zero => rfl
  | succ j ih =>
      cases chain with
      | nil => exact List.take_nil.symm
      | cons c chain =>
          have whole : (d.clusterSlots c).take (d.slotsPerCluster + d.slotsPerCluster * j) = d.clusterSlots c :=
            List.take_of_length_le (by rw [length_clusterSlots]; omega)
          rw [List.take_succ_cons, dirSlots_cons, dirSlots_cons, ih, Nat.mul_succ, Nat.add_comm, List.take_append, whole,
            length_clusterSlots, Nat.add_sub_cancel_left]

/-- The first byte of slot `i` of the chain. -/
def firstByte (d : Disk) (chain : List Nat) (i : Nat) : UInt8 := d.data (d.clusterOf chain i) (d.indexOf i)

theorem firstByte_eq {slot : List UInt8} (here : (d.dirSlots chain)[i]? = some slot) : d.firstByte chain i = slot.getD 0 0 := by
  have inside : i < d.slotsPerCluster * chain.length := by
    rw [← length_dirSlots]
    exact (List.getElem?_eq_some_iff.mp here).1
  rw [getElem?_dirSlots d inside] at here
  rw [← Option.some.inj here, slotAt_getD (by decide)]
  rfl

/-! ## The deleted slots in front of the end mark -/

/-- What the pass over the first `k` slots knows: the deleted slots at their end, `r` of them. -/
structure Trailing (d : Disk) (chain : List Nat) (k r : Nat) (t : Trash) : Prop where
  few : r ≤ k
  deleted : ∀ i, k - r ≤ i → i < k → d.firstByte chain i = 0xe5
  most : r < k → d.firstByte chain (k - r - 1) ≠ 0xe5
  start : t.startCluster = if r = 0 then 0 else d.clusterOf chain (k - r)
  count : 0 < r → t.clusterCount = r

theorem Trailing.pass {k r : Nat} {t : Trash} (trailing : d.Trailing chain k r t)
    (nonzero : ∀ i < k, d.clusterOf chain i ≠ 0) :
    ∃ r, d.Trailing chain (k + 1) r (t.pass (d.clusterOf chain k) (d.firstByte chain k)) := by
  have few := trailing.few
  rw [Trash.pass]
  by_cases deleted : d.firstByte chain k = 0xe5
  · have first : ∀ i, k + 1 - (r + 1) ≤ i → i < k + 1 → d.firstByte chain i = 0xe5 := by
      intro i above below
      by_cases last : i = k
      · rwa [last]
      · exact trailing.deleted i (by omega) (by omega)
    have most : r + 1 < k + 1 → d.firstByte chain (k + 1 - (r + 1) - 1) ≠ 0xe5 := by
      rw [Nat.add_sub_add_right]
      exact fun more => trailing.most (by omega)
    have start := trailing.start
    refine ⟨r + 1, Nat.succ_le_succ few, first, most, ?_, fun _ => ?_⟩
    · rw [if_pos deleted, if_neg (Nat.succ_ne_zero r), Nat.add_sub_add_right]
      split_ifs at start with none
      · rw [if_pos start, none, Nat.sub_zero]
      · rw [if_neg (by rw [start]; exact nonzero _ (by omega)), start]
    · rw [if_pos deleted]
      split_ifs at start with none
      · rw [if_pos start, none]
      · rw [if_neg (by rw [start]; exact nonzero _ (by omega)), trailing.count (Nat.pos_of_ne_zero none)]
  · rw [if_neg deleted]
    refine ⟨0, Nat.zero_le _, fun i above below => absurd above (by omega), fun _ => ?_, (if_pos rfl).symm, fun more => (by cases more)⟩
    rwa [Nat.sub_zero, Nat.add_sub_cancel]

theorem scan_trailing {k p r : Nat} {t : Trash} (row col m : Nat) (cluster : d.slotsPerCluster * row + col = k)
    (left : col + m = d.slotsPerCluster) (trailing : d.Trailing chain k r t) (before : k ≤ p)
    (nonzero : ∀ i < p, d.clusterOf chain i ≠ 0) (used : ∀ i < p, d.firstByte chain i ≠ 0x00) (mark : d.firstByte chain p = 0x00) :
    ∃ r t', d.Trailing chain (min p (k + m)) r t' ∧
      Trash.scan (d.data (chain.getD row 0)) (chain.getD row 0) m (32 * col) t = (decide (p < k + m), t') := by
  induction m generalizing k col r t with
  | zero => exact ⟨r, t, by rwa [Nat.add_zero, Nat.min_eq_right before], by rw [Trash.scan, decide_eq_false (by omega)]⟩
  | succ m ih =>
      have pos : 0 < d.slotsPerCluster := by omega
      have here : d.clusterOf chain k = chain.getD row 0 ∧ d.indexOf k = 32 * col := by
        rw [clusterOf, indexOf, ← cluster, Nat.mul_add_div pos, Nat.mul_add_mod, Nat.div_eq_of_lt (by omega),
          Nat.mod_eq_of_lt (by omega)]
        exact ⟨rfl, rfl⟩
      have first : d.data (chain.getD row 0) (32 * col) = d.firstByte chain k := by rw [firstByte, here.1, here.2]
      rw [Trash.scan, first]
      rcases Nat.eq_or_lt_of_le before with rfl | more
      · rw [if_pos mark]
        exact ⟨r, t, by rwa [Nat.min_eq_left (by omega)], by rw [decide_eq_true (by omega)]⟩
      · rw [if_neg (used k more)]
        obtain ⟨r', trailing'⟩ := trailing.pass fun i small => nonzero i (small.trans more)
        rw [here.1] at trailing'
        have next := ih (col + 1) (k := k + 1) (by omega) (by omega) trailing' more
        rwa [show k + 1 + m = k + (m + 1) by omega] at next

theorem findTrash_trailing {fuel endCluster row p r : Nat} {t : Trash} (pos : 0 < d.slotsPerCluster) (linked : d.Linked chain)
    (inside : p < d.slotsPerCluster * chain.length) (trailing : d.Trailing chain (d.slotsPerCluster * row) r t)
    (before : d.slotsPerCluster * row ≤ p) (nonzero : ∀ i < p, d.clusterOf chain i ≠ 0)
    (used : ∀ i < p, d.firstByte chain i ≠ 0x00) (mark : d.firstByte chain p = 0x00)
    (goes : ∀ j < p / d.slotsPerCluster, chain.getD j 0 ≠ endCluster) (enough : p / d.slotsPerCluster < fuel + row) :
    ∃ r t', d.Trailing chain p r t' ∧
      d.findTrash endCluster fuel (chain.getD row 0) t = some (some (d.clusterOf chain p, t')) := by
  have rows : row ≤ p / d.slotsPerCluster := (Nat.le_div_iff_mul_le pos).mpr (by rwa [Nat.mul_comm])
  induction fuel generalizing row r t with
  | zero => omega
  | succ fuel ih =>
      obtain ⟨r', t', trailing', scan⟩ := scan_trailing row 0 d.slotsPerCluster (Nat.add_zero _) (Nat.zero_add _) trailing
        before nonzero used mark
      have slots : d.slotCount 0 = d.slotsPerCluster := d.slotCount_eq 0
      rw [Nat.mul_zero] at scan
      rw [findTrash, slots, scan]
      by_cases here : p < d.slotsPerCluster * row + d.slotsPerCluster
      · rw [decide_eq_true here]
        have same : p / d.slotsPerCluster = row :=
          le_antisymm (Nat.le_of_lt_succ (Nat.div_lt_of_lt_mul (by rw [Nat.mul_succ]; exact here))) rows
        rw [Nat.min_eq_left here.le] at trailing'
        exact ⟨r', t', trailing', by rw [clusterOf, same]⟩
      · rw [decide_eq_false here]
        have after : d.slotsPerCluster * (row + 1) ≤ p := by
          rw [Nat.mul_succ]
          exact not_lt.mp here
        have later : row + 1 ≤ p / d.slotsPerCluster := (Nat.le_div_iff_mul_le pos).mpr (by rwa [Nat.mul_comm])
        have rowInside : row + 1 < chain.length := later.trans_lt (Nat.div_lt_of_lt_mul inside)
        have next : d.fat.getFatEntry (chain.getD row 0) = chain.getD (row + 1) 0 := by
          have link := (List.isChain_iff_getElem.mp linked row rowInside).1
          rwa [List.getD_eq_getElem?_getD, List.getD_eq_getElem?_getD, List.getElem?_eq_getElem (Nat.lt_of_succ_lt rowInside),
            List.getElem?_eq_getElem rowInside]
        rw [Nat.min_eq_right (not_lt.mp here)] at trailing'
        simp only
        rw [if_neg (goes row (Nat.lt_of_succ_le later)), next]
        exact ih (by rwa [Nat.mul_succ]) after (by omega) later

/-! ## The end of the directory taken back -/

theorem markSlots_none (directory : Bytes) (s : Nat) (val : UInt8) : markSlots directory s 0 val = directory := by
  funext i
  exact if_neg (by omega)

theorem clearTail_eq (n : Nat) (directory : Bytes) : ∃ m ≤ n, clearTail n directory = markSlots directory (32 * m) (n - m) 0x00 ∧
    (∀ i, m ≤ i → i < n → directory (32 * i) = 0x00 ∨ directory (32 * i) = 0xe5) ∧
    (0 < m → directory (32 * (m - 1)) ≠ 0x00 ∧ directory (32 * (m - 1)) ≠ 0xe5) := by
  induction n generalizing directory with
  | zero => exact ⟨0, le_rfl, (markSlots_none _ _ _).symm, fun i _ below => (by cases below), fun pos => (by cases pos)⟩
  | succ n ih =>
      rw [clearTail]
      split_ifs with inUse
      · refine ⟨n + 1, le_rfl, ?_, fun i above below => absurd above (by omega), fun _ => inUse⟩
        rw [Nat.sub_self, markSlots_none]
      · have free : directory (32 * n) = 0x00 ∨ directory (32 * n) = 0xe5 := by
          rw [not_and_or, not_not, not_not] at inUse
          exact inUse
        obtain ⟨m, few, cleared, between, stop⟩ := ih (Function.update directory (32 * n) 0x00)
        have other : ∀ i < n, Function.update directory (32 * n) 0x00 (32 * i) = directory (32 * i) := fun i below =>
          Function.update_of_ne (by omega) _ _
        refine ⟨m, Nat.le_succ_of_le few, ?_, fun i above below => ?_, fun pos => ?_⟩
        · rw [cleared]
          funext i
          simp only [markSlots]
          by_cases last : i = 32 * n
          · rw [last, Function.update_self, ite_self, if_pos (by omega)]
          · rw [Function.update_of_ne last]
            refine if_congr ?_ rfl rfl
            omega
        · by_cases last : i = n
          · rwa [last]
          · rw [← other i (by omega)]
            exact between i above (by omega)
        · rw [← other (m - 1) (by omega)]
          exact stop pos

theorem firstByte_row {row m : Nat} (inside : m < d.slotsPerCluster) :
    d.firstByte chain (d.slotsPerCluster * row + m) = d.data (chain.getD row 0) (32 * m) := by
  rw [firstByte, clusterOf, indexOf, Nat.mul_add_div (by omega), Nat.mul_add_mod, Nat.div_eq_of_lt inside,
    Nat.mod_eq_of_lt inside, Nat.add_zero]

theorem take_markRange {q m : Nat} {slots : List (List UInt8)} (n : Nat) (val : UInt8) (before : q ≤ p) (within : q ≤ m) :
    ((markRange p n val slots).take m).take q = slots.take q := by
  rw [List.take_take, Nat.min_eq_left within]
  apply List.ext_getElem?
  intro i
  rw [List.getElem?_take, List.getElem?_take]
  split_ifs with early
  · rw [markRange, List.getElem?_mapIdx]
    cases slots[i]? with
    | none => rfl
    | some slot => exact congrArg some (if_neg (by omega))
  · rfl

/-- The slots of the cluster `row` from `m` on become slots never used: the deleted slots in front of the end mark `p` go
with them, unless a slot behind the mark is in use. -/
theorem cleared_slots {row m p r : Nat} (rowInside : row < chain.length)
    (inside : p < d.slotsPerCluster * chain.length) (few : m ≤ d.slotsPerCluster) (positive : 0 < r) (front : r ≤ p)
    (first : (p - r) / d.slotsPerCluster = row) (deleted : ∀ i, p - r ≤ i → i < p → d.firstByte chain i = 0xe5)
    (most : r < p → d.firstByte chain (p - r - 1) ≠ 0xe5) (used : ∀ i < p, d.firstByte chain i ≠ 0x00)
    (mark : d.firstByte chain p = 0x00)
    (between : ∀ i, m ≤ i → i < d.slotsPerCluster → d.data (chain.getD row 0) (32 * i) = 0x00 ∨
      d.data (chain.getD row 0) (32 * i) = 0xe5)
    (stop : 0 < m → d.data (chain.getD row 0) (32 * (m - 1)) ≠ 0x00 ∧ d.data (chain.getD row 0) (32 * (m - 1)) ≠ 0xe5) :
    ∃ r ≤ p, (∀ i, p - r ≤ i → i < p → d.firstByte chain i = 0xe5) ∧ ∃ slot tail, slot.getD 0 0 = 0x00 ∧
      (markRange (d.slotsPerCluster * row + m) (d.slotsPerCluster - m) 0x00 (d.dirSlots chain)).take
        (d.slotsPerCluster * (row + 1)) = (d.dirSlots chain).take (p - r) ++ slot :: tail := by
  have pos : 0 < d.slotsPerCluster := Nat.pos_of_ne_zero fun zero => by simp [zero] at inside
  have split := Nat.div_add_mod (p - r) d.slotsPerCluster
  have small := Nat.mod_lt (p - r) pos
  rw [first] at split
  have whole : d.slotsPerCluster * (row + 1) ≤ d.slotsPerCluster * chain.length := Nat.mul_le_mul_left _ rowInside
  rw [Nat.mul_succ] at whole ⊢
  have byteAt : ∀ i, d.slotsPerCluster * row ≤ i → i < d.slotsPerCluster * row + d.slotsPerCluster →
      d.firstByte chain i = d.data (chain.getD row 0) (32 * (i - d.slotsPerCluster * row)) := by
    intro i above below
    rw [← firstByte_row (by omega), Nat.add_sub_cancel' above]
  set cleared := (markRange (d.slotsPerCluster * row + m) (d.slotsPerCluster - m) 0x00 (d.dirSlots chain)).take
    (d.slotsPerCluster * row + d.slotsPerCluster) with isCleared
  -- up to slot `q`, which is free, the slots are as they were
  have answer : ∀ q slot, q ≤ d.slotsPerCluster * row + m → q < d.slotsPerCluster * row + d.slotsPerCluster →
      cleared[q]? = some slot → slot.getD 0 0 = 0x00 →
      ∃ slot tail, slot.getD 0 0 = 0x00 ∧ cleared = (d.dirSlots chain).take q ++ slot :: tail := by
    intro q slot before within here free
    refine ⟨slot, cleared.drop (q + 1), free, ?_⟩
    obtain ⟨bound, rfl⟩ := List.getElem?_eq_some_iff.mp here
    rw [← take_markRange (d.slotsPerCluster - m) 0x00 before within.le, ← isCleared, ← List.drop_eq_getElem_cons bound,
      List.take_append_drop]
  have reached : p - r ≤ d.slotsPerCluster * row + m := by
    by_contra earlier
    have previous := between (p - r - 1 - d.slotsPerCluster * row) (by omega) (by omega)
    rw [← byteAt (p - r - 1) (by omega) (by omega)] at previous
    rcases previous with zero | hole
    · exact used _ (by omega) zero
    · exact most (by omega) hole
  have slotAt? : ∀ i, i < d.slotsPerCluster * row + d.slotsPerCluster → cleared[i]? = ((d.dirSlots chain)[i]?).map fun slot =>
      if d.slotsPerCluster * row + m ≤ i then slot.set 0 0x00 else slot := by
    intro i below
    rw [isCleared, List.getElem?_take_of_lt below, markRange, List.getElem?_mapIdx]
    congr 1
    funext slot
    exact if_congr (by omega) rfl rfl
  rcases Nat.eq_or_lt_of_le reached with same | later
  · -- the deleted slots go
    refine ⟨r, front, deleted, answer (p - r) ((slotAt (d.data (d.clusterOf chain (p - r))) (d.indexOf (p - r))).set 0 0x00)
      reached (by omega) ?_ ?_⟩
    · exact ((slotAt? _ (by omega)).trans (congrArg _ (getElem?_dirSlots d (by omega)))).trans (congrArg some (if_pos same.symm.le))
    · cases slotAt (d.data (d.clusterOf chain (p - r))) (d.indexOf (p - r)) <;> rfl
  · -- a slot behind the end mark is in use
    have last := stop (by omega)
    have same := byteAt (d.slotsPerCluster * row + m - 1) (by omega) (by omega)
    rw [show d.slotsPerCluster * row + m - 1 - d.slotsPerCluster * row = m - 1 by omega] at same
    rw [← same] at last
    have behind : p < d.slotsPerCluster * row + m - 1 := by
      by_contra early
      rcases Nat.eq_or_lt_of_le (not_lt.mp early) with atMark | inFront
      · rw [atMark] at last
        exact last.1 mark
      · exact last.2 (deleted _ (by omega) inFront)
    have here := getElem?_dirSlots d inside
    refine ⟨0, Nat.zero_le _, fun i above below => absurd above (by omega),
      answer p (slotAt (d.data (d.clusterOf chain p)) (d.indexOf p)) (by omega) (by omega) ?_ ?_⟩
    · exact ((slotAt? p (by omega)).trans (congrArg _ here)).trans (congrArg some (if_neg (by omega)))
    · rw [← firstByte_eq here]
      exact mark

/-- A chain of the FAT. -/
structure Owns (f : Fat) (chain : List Nat) : Prop where
  links : Seg f.link chain.head? chain none
  inUse : ∀ c ∈ chain, f.InUse c

theorem Owns.dirChain (owns : Owns d.fat chain) (volume : d.fat.Volume) : d.DirChain chain :=
  (dirChain_seg fun c member => volume.below (owns.inUse c member).data).mpr owns.links

/-- The front `chain'` of a chain is kept, the rest is free. -/
structure Cuts (f g : Fat) (chain chain' : List Nat) : Prop where
  volume : g.Volume
  total : g.totalClusters = f.totalClusters
  owns : Owns g chain'
  entries : ∀ c ∉ chain, g.entry c = f.entry c
  freed : ∀ c ∈ chain, c ∉ chain' → g.getFatEntry c = fatFreeCluster

variable {f g : Fat}

theorem Cuts.refl (volume : f.Volume) (owns : Owns f chain) : Cuts f f chain chain :=
  ⟨volume, rfl, owns, fun _ _ => rfl, fun _ member outside => absurd member outside⟩

theorem Cuts.trans {h : Fat} {chain₁ chain₂ : List Nat} (first : Cuts f g chain chain₁) (second : Cuts g h chain₁ chain₂)
    (front : chain₁ <+: chain) : Cuts f h chain chain₂ where
  volume := second.volume
  total := second.total.trans first.total
  owns := second.owns
  entries c outside :=
    (second.entries c fun member => outside (front.subset member)).trans (first.entries c outside)
  freed c member outside := by
    by_cases kept : c ∈ chain₁
    · exact second.freed c kept outside
    · rw [Fat.getFatEntry_congr (second.entries c kept)]
      exact first.freed c member kept

theorem Cuts.partition {chain' : List Nat} {rest : List (List Nat)} (cuts : Cuts f g chain chain') (front : chain' <+: chain)
    (part : f.Partition (chain :: rest)) : g.Partition (chain' :: rest) := by
  have noneTaken : ∀ c ∈ ([] : List Nat), f.Free c := by simp
  refine part.replace cuts.total (fun c outside _ => cuts.entries c outside) noneTaken cuts.owns.links fun c => ?_
  simp only [List.not_mem_nil, or_false]
  constructor
  · exact fun member => ⟨front.subset member, cuts.owns.inUse c member⟩
  rintro ⟨member, used⟩
  by_contra outside
  exact used.notFree (cuts.freed c member outside)

theorem cutClusterChain_at {row : Nat} (volume : f.Volume) (owns : Owns f chain) (inside : row < chain.length) :
    ∃ g, f.cutClusterChain (chain.getD row 0) = some (.success, g) ∧ Cuts f g chain (chain.take (row + 1)) := by
  have parts : chain = chain.take row ++ chain.getD row 0 :: chain.drop (row + 1) := by
    rw [List.getD_eq_getElem _ _ inside, ← List.drop_eq_getElem_cons inside, List.take_append_drop]
  have front : chain.take (row + 1) = chain.take row ++ [chain.getD row 0] := by
    rw [List.getD_eq_getElem _ _ inside, List.take_concat_get' _ _ inside]
  set c := chain.getD row 0
  set k := chain.take row
  set tail := chain.drop (row + 1)
  rw [front]
  rw [parts] at owns ⊢
  obtain ⟨left, right⟩ := owns.links.split
  have nodup := List.nodup_append'.mp owns.links.nodup
  have fresh := (List.nodup_cons.mp nodup.2.1).1
  have apart : ∀ a ∈ k, a ≠ c ∧ a ∉ tail := fun a member =>
    ⟨by rintro rfl; exact nodup.2.2 member List.mem_cons_self, fun later => nodup.2.2 member (List.mem_cons_of_mem _ later)⟩
  obtain ⟨g, cut, same⟩ := Fat.cutClusterChain_spec volume ⟨rfl, right⟩ fun a member => owns.inUse a (List.mem_append_right _ member)
  refine ⟨g, cut, ?_⟩
  rcases same with ⟨none, rfl⟩ | ⟨hint, low, rfl⟩
  · rw [none] at owns ⊢
    exact .refl volume owns
  · set cleared := (f.clear tail).withFsinfo hint (f.freeClusterCount + BitVec.ofNat 32 tail.length)
    have total : (cleared.setFatEntry c fatEoc).totalClusters = f.totalClusters := Fat.totalClusters_clear f tail
    have ended : (cleared.setFatEntry c fatEoc).getFatEntry c = fatEoc := Fat.getFatEntry_set_self cleared c (by decide)
    have entryOf : ∀ a, a ≠ c → a ∉ tail → (cleared.setFatEntry c fatEoc).entry a = f.entry a := by
      intro a other outside
      rw [Fat.entry_setFatEntry_ne other, Fat.entry_withFsinfo, Fat.entry_clear f outside]
    refine ⟨⟨by rw [total]; exact volume.fits, low⟩, total, ⟨?_, fun a member => ?_⟩, fun a outside => ?_, fun a member outside => ?_⟩
    · have heads : (k ++ [c]).head? = (k ++ c :: tail).head? := by
        cases k <;> rfl
      rw [heads]
      exact left.relink (fun a member => Fat.link_congr (entryOf a (apart a member).1 (apart a member).2)) (Fat.link_set_eoc cleared c)
    · rcases List.mem_append.mp member with old | last
      · exact (owns.inUse a (List.mem_append_left _ old)).congr total (entryOf a (apart a old).1 (apart a old).2)
      · obtain rfl := List.mem_singleton.mp last
        refine ⟨?_, ?_, ?_⟩
        · rw [Fat.Data, total]
          exact (owns.inUse c (List.mem_append_right _ List.mem_cons_self)).data
        all_goals
          rw [ended]
          decide
    · rw [List.mem_append, List.mem_cons, not_or, not_or] at outside
      exact entryOf a outside.2.1 outside.2.2
    · rw [List.mem_append, List.mem_singleton, not_or] at outside
      have later : a ∈ tail := by
        rcases List.mem_append.mp member with old | behind
        · exact absurd old outside.1
        · exact (List.mem_cons.mp behind).resolve_left outside.2
      rw [Fat.getFatEntry_set_ne outside.2, Fat.getFatEntry_withFsinfo]
      exact Fat.getFatEntry_clear f later

/-- From `d` to `d'` the directory keeps the front `chain'` of its chain, and nothing else changes. -/
structure Shrinks (d d' : Disk) (chain chain' : List Nat) : Prop where
  front : chain' <+: chain
  nonempty : chain' ≠ []
  fat : Cuts d.fat d'.fat chain chain'
  sectors : d'.sectorsPerCluster = d.sectorsPerCluster
  others : ∀ c ∉ chain, d'.data c = d.data c

/-- One deleted slot stands in front of the end mark, and it is the last of its cluster. -/
def LoneHole (d : Disk) (chain : List Nat) (p : Nat) : Prop :=
  0 < p ∧ p % d.slotsPerCluster = 0 ∧ d.firstByte chain (p - 1) = 0xe5 ∧ (1 < p → d.firstByte chain (p - 2) ≠ 0xe5)

theorem fixEmptyEntries_shrinks {fuel endCluster p : Nat} (volume : d.fat.Volume) (owns : Owns d.fat chain)
    (inside : p < d.slotsPerCluster * chain.length)
    (used : ∀ i < p, d.firstByte chain i ≠ 0x00) (mark : d.firstByte chain p = 0x00) (notLone : ¬ d.LoneHole chain p)
    (goes : ∀ j < p / d.slotsPerCluster, chain.getD j 0 ≠ endCluster) (enough : chain.length ≤ fuel) :
    ∃ d' chain', d.fixEmptyEntries fuel (chain.getD 0 0) endCluster = some d' ∧ d.Shrinks d' chain chain' ∧
      ∃ r ≤ p, (∀ i, p - r ≤ i → i < p → d.firstByte chain i = 0xe5) ∧
        ∃ tail, d'.dirSlots chain' = (d.dirSlots chain).take (p - r) ++ tail ∧ Stops tail := by
  have pos : 0 < d.slotsPerCluster := Nat.pos_of_ne_zero fun zero => by simp [zero] at inside
  have on := owns.dirChain volume
  have rowOf : ∀ i < p, i / d.slotsPerCluster < chain.length := fun i before => Nat.div_lt_of_lt_mul (by omega)
  have nonzero : ∀ i < p, d.clusterOf chain i ≠ 0 := by
    intro i before zero
    have member : d.clusterOf chain i ∈ chain := by
      rw [clusterOf, List.getD_eq_getElem _ _ (rowOf i before)]
      exact List.getElem_mem _
    have := (owns.inUse _ member).data.1
    omega
  have nonempty : chain ≠ [] := by
    rintro rfl
    cases inside
  have start : d.Trailing chain (d.slotsPerCluster * 0) 0 ⟨0, 0⟩ :=
    ⟨Nat.zero_le _, fun i above below => absurd above (by omega), fun more => absurd more (by omega), rfl,
      fun more => (by cases more)⟩
  have rows : p / d.slotsPerCluster < fuel + 0 := (Nat.div_lt_of_lt_mul inside).trans_le enough
  obtain ⟨r, t, trailing, found⟩ := findTrash_trailing pos on.linked inside start (by omega) nonzero used mark goes rows
  have startCluster := trailing.start
  have few := trailing.few
  rw [fixEmptyEntries, found]
  simp only
  rcases Nat.eq_zero_or_pos r with rfl | positive
  · -- no deleted slot is in front of the mark
    rw [if_pos rfl] at startCluster
    rw [if_pos startCluster]
    have bound : p < (d.dirSlots chain).length := by rwa [length_dirSlots]
    refine ⟨d, chain, rfl, ⟨List.prefix_rfl, nonempty, .refl volume owns, rfl, fun _ _ => rfl⟩, 0, Nat.zero_le _,
      fun i above below => absurd above (by omega), (d.dirSlots chain).drop p, (List.take_append_drop _ _).symm, ?_⟩
    intro slot head
    rw [List.head?_drop] at head
    rw [← firstByte_eq head]
    exact mark
  · rw [if_neg positive.ne'] at startCluster
    rw [startCluster, if_neg (nonzero _ (by omega))]
    have rowInside := rowOf (p - r) (by omega)
    have slots : d.slotCount 0 = d.slotsPerCluster := d.slotCount_eq 0
    obtain ⟨m, small, cleared, between, stop⟩ := clearTail_eq d.slotsPerCluster (d.data (d.clusterOf chain (p - r)))
    obtain ⟨r', front, deleted, slot, tail, free, taken⟩ := cleared_slots rowInside inside small positive few rfl
      trailing.deleted trailing.most used mark between stop
    have marked := dirSlots_markSlots (d := d) on.nodup rowInside m (d.slotsPerCluster - m) (by omega) 0x00
    have outside : ∀ c ∉ chain, (d.setData (d.clusterOf chain (p - r)) (clearTail d.slotsPerCluster
        (d.data (d.clusterOf chain (p - r))))).data c = d.data c := by
      intro c notOn
      refine Function.update_of_ne ?_ _ _
      rintro rfl
      rw [clusterOf, List.getD_eq_getElem _ _ rowInside] at notOn
      exact notOn (List.getElem_mem _)
    rw [← clusterOf, ← cleared] at marked
    have stops : ∀ more, Stops (slot :: more) := by
      rintro more _ ⟨⟩
      exact free
    rw [slots, trailing.count positive]
    by_cases many : r > 1
    · -- the clusters behind go, too
      obtain ⟨g, cut, cuts⟩ := cutClusterChain_at volume owns rowInside
      rw [if_pos many, clusterOf, cut]
      refine ⟨_, chain.take ((p - r) / d.slotsPerCluster + 1), rfl, ⟨List.take_prefix _ _, ?_, cuts, rfl, outside⟩, r', front,
        deleted, slot :: tail, ?_, stops tail⟩
      · rw [Ne, List.take_eq_nil_iff]
        exact fun none => none.elim (Nat.succ_ne_zero _) nonempty
      · rw [← taken, ← marked]
        exact dirSlots_take _ _ _
    · obtain rfl : r = 1 := by omega
      have inRow : p % d.slotsPerCluster ≠ 0 := fun first =>
        notLone ⟨positive.trans_le few, first, trailing.deleted _ le_rfl (by omega), fun more => trailing.most more⟩
      have current : d.clusterOf chain p = d.clusterOf chain (p - 1) := by
        have split := Nat.div_add_mod p d.slotsPerCluster
        have small' := Nat.mod_lt p pos
        have same : (p - 1) / d.slotsPerCluster = p / d.slotsPerCluster := by
          refine Nat.div_eq_of_lt_le ?_ ?_
          · rw [Nat.mul_comm]
            omega
          · rw [Nat.mul_comm, Nat.mul_succ]
            omega
        rw [clusterOf, clusterOf, same]
      rw [if_neg many, current]
      refine ⟨_, chain, rfl, ⟨List.prefix_rfl, nonempty, .refl volume owns, rfl, outside⟩, r', front, deleted, slot :: (tail ++ ?_), ?_,
        stops _⟩
      · exact (markRange (d.slotsPerCluster * ((p - 1) / d.slotsPerCluster) + m) (d.slotsPerCluster - m) 0x00
          (d.dirSlots chain)).drop (d.slotsPerCluster * ((p - 1) / d.slotsPerCluster + 1))
      · rw [marked, ← List.cons_append, ← List.append_assoc, ← taken, List.take_append_drop]

end Disk
end Kerosene.Fat32
