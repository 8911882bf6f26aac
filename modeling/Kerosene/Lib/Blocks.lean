import Mathlib.Data.List.Basic
import Mathlib.Data.List.Nodup
import Mathlib.Algebra.Order.Group.Nat

/-!
# Lists cut into blocks of one size

A list that is stored in blocks of `n` elements is the concatenation of the blocks; element `i` of
block `j` is element `j * n + i` of the whole.
-/

namespace Kerosene.Lib
variable {α β : Type*} {n i j : Nat} {blocks : List (List α)} {b : List α}

def Blocks (n : Nat) (blocks : List (List α)) : Prop := ∀ b ∈ blocks, b.length = n

theorem blocks_cons : Blocks n (b :: blocks) ↔ b.length = n ∧ Blocks n blocks := List.forall_mem_cons

theorem Blocks.length (uniform : Blocks n blocks) : blocks.flatten.length = blocks.length * n := by
  induction blocks with
  | nil => simp
  | cons b blocks ih =>
      rw [blocks_cons] at uniform
      rw [List.flatten_cons, List.length_append, ih uniform.2, uniform.1, List.length_cons, Nat.succ_mul,
        Nat.add_comm]

theorem Blocks.getElem? (uniform : Blocks n blocks) (small : i < n) :
    blocks.flatten[j * n + i]? = blocks[j]?.bind fun b => b[i]? := by
  induction blocks generalizing j with
  | nil => simp
  | cons b blocks ih =>
      rw [blocks_cons] at uniform
      rw [List.flatten_cons]
      cases j with
      | zero =>
          rw [List.getElem?_append_left (by omega)]
          simp
      | succ j =>
          rw [List.getElem?_append_right (by rw [uniform.1, Nat.succ_mul]; omega), List.getElem?_cons_succ,
            ← ih uniform.2]
          congr 1
          rw [uniform.1, Nat.succ_mul]
          omega

theorem Blocks.set (uniform : Blocks n blocks) (small : i < n) (here : blocks[j]? = some b) (v : α) :
    (blocks.set j (b.set i v)).flatten = blocks.flatten.set (j * n + i) v := by
  induction blocks generalizing j with
  | nil => simp at here
  | cons c blocks ih =>
      rw [blocks_cons] at uniform
      cases j with
      | zero =>
          cases here
          rw [List.set_cons_zero, List.flatten_cons, List.flatten_cons, Nat.zero_mul, Nat.zero_add,
            List.set_append_left _ _ (by omega)]
      | succ j =>
          rw [List.set_cons_succ, List.flatten_cons, List.flatten_cons, ih uniform.2 here,
            List.set_append_right _ _ (by rw [uniform.1, Nat.succ_mul]; omega)]
          congr 2
          rw [uniform.1, Nat.succ_mul]
          omega

theorem Blocks.slice (uniform : Blocks n blocks) (here : blocks[j]? = some b) (within : i ≤ n) (m : Nat) :
    (blocks.flatten.drop (j * n + i)).take m = (b.drop i).take m ++ (blocks.flatten.drop ((j + 1) * n)).take (m - (n - i)) := by
  induction blocks generalizing j with
  | nil => simp at here
  | cons c blocks ih =>
      rw [blocks_cons] at uniform
      rw [List.flatten_cons]
      cases j with
      | zero =>
          cases here
          rw [Nat.zero_mul, Nat.zero_add, Nat.zero_add, Nat.one_mul, List.drop_append_of_le_length (by omega), List.take_append,
            List.length_drop, ← uniform.1, List.drop_left]
      | succ j =>
          have first : (j + 1) * n + i = c.length + (j * n + i) := by
            rw [uniform.1, Nat.succ_mul]
            omega
          have second : (j + 1 + 1) * n = c.length + (j + 1) * n := by
            rw [uniform.1, Nat.succ_mul (j + 1)]
            omega
          rw [first, second, List.drop_length_add_append, List.drop_length_add_append]
          exact ih uniform.2 here

theorem map_update_of_getElem? [DecidableEq α] {l : List α} {a : α} (nodup : l.Nodup) (here : l[j]? = some a)
    (f : α → β) (y : β) : l.map (Function.update f a y) = (l.map f).set j y := by
  obtain ⟨bound, rfl⟩ := List.getElem?_eq_some_iff.mp here
  rw [nodup.map_update, if_pos (List.getElem_mem bound), List.Nodup.idxOf_getElem nodup]

end Kerosene.Lib
