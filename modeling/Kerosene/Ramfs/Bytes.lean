import Kerosene.Lib.Blocks
import Kerosene.Ramfs.Datanodes

/-!
# Bytes in datanodes
-/

namespace Kerosene.Ramfs
open Lib

def ramfsDatanodeSize : Nat := 512

abbrev Block := Vector UInt8 512

/-- `memcpy(data + offset, bytes, length)` -/
def copyInto (block : Block) (offset : Nat) (bytes : List UInt8) : Block :=
  Vector.ofFn fun i => if offset ≤ i then (bytes[i.val - offset]?).getD block[i] else block[i]

theorem getElem_copyInto {block : Block} {offset i : Nat} {bytes : List UInt8} (small : i < 512) :
    (copyInto block offset bytes)[i] = if offset ≤ i then (bytes[i - offset]?).getD block[i] else block[i] := by
  simp only [copyInto, Vector.getElem_ofFn]
  rfl

theorem toList_copyInto {block : Block} {offset : Nat} {bytes : List UInt8} (fits : offset + bytes.length ≤ 512) :
    (copyInto block offset bytes).toList =
      block.toList.take offset ++ bytes ++ block.toList.drop (offset + bytes.length) := by
  apply List.ext_getElem
  · simp only [Vector.length_toList, List.length_append, List.length_take, List.length_drop]
    omega
  · intro i small _
    rw [Vector.length_toList] at small
    have head : (block.toList.take offset).length = offset := by
      rw [List.length_take, Vector.length_toList]
      omega
    rw [Vector.getElem_toList, getElem_copyInto small]
    by_cases before : i < offset
    · rw [if_neg (by omega), List.getElem_append_left (by simp; omega), List.getElem_append_left (by omega),
        List.getElem_take, Vector.getElem_toList]
    · rw [if_pos (by omega)]
      by_cases inside : i < offset + bytes.length
      · rw [List.getElem_append_left (by simp; omega), List.getElem_append_right (by omega),
          List.getElem?_eq_getElem (by omega), Option.getD_some]
        congr 1
        omega
      · rw [List.getElem_append_right (by simp; omega), List.getElem?_eq_none (by omega), Option.getD_none,
          List.getElem_drop]
        rw [Vector.getElem_toList]
        congr 1
        simp only [List.length_append, head]
        omega

namespace Datanodes
variable {s s' : Datanodes Block} {a : Addr} {first : Option Addr} {l left : List Addr} {node : Datanode Block}

def row (s : Datanodes Block) (a : Addr) : List UInt8 := (s a).elim [] fun node => node.data.toList

theorem row_eq (here : s a = some node) : s.row a = node.data.toList := by rw [row, here]; rfl

theorem row_length (here : s a = some node) : (s.row a).length = 512 := by
  rw [row_eq here]
  exact node.data.length_toList

def bytes (s : Datanodes Block) (l : List Addr) : List UInt8 := (l.map s.row).flatten

@[simp] theorem bytes_nil (s : Datanodes Block) : s.bytes [] = [] := rfl

@[simp] theorem bytes_cons (s : Datanodes Block) (a : Addr) (l : List Addr) : s.bytes (a :: l) = s.row a ++ s.bytes l := rfl

@[simp] theorem bytes_append (s : Datanodes Block) (left right : List Addr) :
    s.bytes (left ++ right) = s.bytes left ++ s.bytes right := by
  rw [bytes, List.map_append, List.flatten_append, bytes, bytes]

theorem blocks_row (allocated : ∀ a ∈ l, (s a).isSome) : Blocks 512 (l.map s.row) := by
  intro b member
  obtain ⟨a, inside, rfl⟩ := List.mem_map.mp member
  obtain ⟨node, here⟩ := Option.isSome_iff_exists.mp (allocated a inside)
  exact row_length here

theorem bytes_length (allocated : ∀ a ∈ l, (s a).isSome) : (s.bytes l).length = l.length * 512 := by
  rw [bytes, (blocks_row allocated).length, List.length_map]

theorem bytes_congr (same : ∀ a ∈ l, s'.row a = s.row a) : s'.bytes l = s.bytes l := by
  rw [bytes, bytes, List.map_congr_left same]

theorem row_congr (same : s' a = s a) : s'.row a = s.row a := by rw [row, row, same]

end Datanodes
end Kerosene.Ramfs
