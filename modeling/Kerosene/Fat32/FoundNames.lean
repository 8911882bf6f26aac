import Kerosene.Fat32.Mkdir
import Kerosene.Fat32.NewFile

/-!
# The place and the name of a new entry

An entry whose slots fit is in the directory behind the slots in use, and an 8.3 name comes back from it when it keeps its dot.
-/

namespace Kerosene.Fat32
open Lib
open Ramfs (Name filenameLimit)
open Ramfs.Heap (dot dotdot)
variable {name : Name} {attr : UInt8} {d d' : Disk} {chain chain' : List Nat} {items : List Item} {node : FsNode}

-- the place of the directory entry
def Listed.At (e : Listed) (node : FsNode) : Prop :=
  e.parentCluster = node.parentCluster ∧ e.parentClusterIndex = node.parentClusterIndex

namespace Disk
variable {fuel p : Nat}

/-! ## The place of the new entry -/

variable {d₁ : Disk} {c : Cursor} {count : Nat} {entries : List (List UInt8)}

theorem Room.cursor (room : d.Room d₁ c count chain chain' p) (length : entries.length = count)
    (fits : p + (count + 1) ≤ d.slotsPerCluster * chain'.length) :
    (putAll entries d₁ c).2.current = d.clusterOf chain' (p + count) ∧ (putAll entries d₁ c).2.startIndex = d.indexOf (p + count) := by
  have perCluster : d₁.slotsPerCluster = d.slotsPerCluster := by
    rw [slotsPerCluster_eq, slotsPerCluster_eq, room.sectors]
  obtain ⟨front, back, k, whole, small, start, rfl, -, -⟩ := room.position
  have here := room.on.drop front.length
  rw [whole, List.drop_left] at here
  rw [whole, List.length_append, List.length_cons, Nat.mul_add] at fits
  obtain ⟨place, index⟩ := putAll_cursor (here.linked.imp fun _ _ next => next.1) start (by omega)
    (show k + entries.length < d₁.slotsPerCluster * (back.length + 1) by rw [perCluster]; omega)
  rw [perCluster, length] at place index
  have row : (d.slotsPerCluster * front.length + (k + count)) / d.slotsPerCluster = front.length + (k + count) / d.slotsPerCluster :=
    Nat.mul_add_div (by omega) _ _
  rw [index, clusterOf, indexOf, whole, Nat.add_assoc, Nat.mul_add_mod, row, List.getD_eq_getElem?_getD,
    List.getElem?_append_right (Nat.le_add_right ..), Nat.add_sub_cancel_left, place]
  exact ⟨rfl, rfl⟩

variable {startCluster size : UInt32} {clock : Clock} {newNode : FsNode} {stack : Int → UInt8}

theorem addEntry_at (sized : d.Sized) (volume : d.fat.Volume) (inUse : ∀ c ∈ chain, d.fat.InUse c) (nonempty : chain ≠ [])
    (on : d.DirChain chain) (short : name.length < filenameLimit)
    (added : d.fat32AddEntry fuel (chain.getD 0 0) name startCluster attr size newNode clock stack = some (.success, d', node)) :
    (d.EntryFits chain name → node.parentCluster = d.clusterOf (d.grownChain chain name) (d.firstFree chain + lfnEntryCount name) ∧
      node.parentClusterIndex = d.indexOf (d.firstFree chain + lfnEntryCount name)) ∧
    (¬ d.EntryFits chain name → node.parentCluster ∉ d.grownChain chain name) := by
  have slots := sized.slots
  obtain ⟨d₁, c, done, written⟩ := addEntry_steps added
  obtain ⟨dir, reserved, lfn, -, -, length, current, index⟩ := writeEntries_slot written
  have room := makeRoom_room (by omega) volume inUse nonempty on done
  obtain ⟨place, -⟩ := room.place sized (grownChain_below volume inUse) (lfnEntryCount_le short) length
  rw [current, index]
  exact ⟨fun fits => room.cursor length fits, fun beyond member => beyond (place.mp member)⟩

theorem length_items_le (items : List Item) : items.length ≤ (slotsOf items).length := by
  induction items with
  | nil => exact le_rfl
  | cons item items ih =>
      have some : 1 ≤ item.slots.length := by
        cases item with
        | hole slot => exact le_rfl
        | file name long short =>
            rw [Item.slots, List.length_append]
            exact Nat.le_add_left ..
      rw [slotsOf_cons, List.length_append, List.length_cons]
      omega

theorem clusterOf_mem {q : Nat} (inside : q < d.slotsPerCluster * chain.length) : d.clusterOf chain q ∈ chain := by
  have row : q / d.slotsPerCluster < chain.length := Nat.div_lt_of_lt_mul inside
  rw [clusterOf, List.getD_eq_getElem?_getD, List.getElem?_eq_getElem row]
  exact List.getElem_mem row

end Disk

/-! ## The name of the new entry -/

-- An 8.3 name keeps its dot, or has none.
def Spelled (name : Name) (isDir : Bool) : Prop :=
  isValidSfn name → 0x2e ∈ name → isDir = false ∧ name.getLast? ≠ some 0x2e

theorem newName_spelled {startCluster size : UInt32} {reserved : UInt8} {clock : Clock} {dir : FatDirectoryEntry}
    (nonempty : name ≠ []) (nonzero : ∀ b ∈ name, b ≠ 0) (notDots : name ≠ dot ∧ name ≠ dotdot)
    (written : shortEntry name startCluster attr size clock reserved = some dir) :
    EqualIgnoringCase (newName name dir) name ↔ Spelled name (attr &&& fatAttrDirectory ≠ 0) := by
  by_cases valid : isValidSfn name
  · have none : lfnEntryCount name = 0 := if_pos (.inr (.inr valid))
    rw [newName, if_pos none]
    rcases sfnText_spelled nonzero valid (shortEntry_name written).1 with ⟨spelled, text⟩ | ⟨lost, isDot, solid⟩
    · rw [text]
      exact iff_of_true rfl fun _ => spelled
    · refine iff_of_false (fun same => ?_) fun spelled => lost (spelled valid)
      -- the other name has a dot
      have inside : toupper 0x2e ∈ name.map toupper := List.mem_map_of_mem isDot
      rw [← same] at inside
      obtain ⟨c, member, dot⟩ := List.mem_map.mp inside
      refine (solid c member).1 ?_
      grind [toupper]
  · have count : lfnEntryCount name = pieceCount name := if_neg (by simp [notDots, valid])
    have some : lfnEntryCount name ≠ 0 := by
      have := List.length_pos_of_ne_nil nonempty
      rw [count, pieceCount]
      omega
    rw [newName, if_neg some]
    exact iff_of_true rfl fun isValid => absurd isValid valid

end Kerosene.Fat32
