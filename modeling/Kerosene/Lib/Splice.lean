import Mathlib.Data.List.Basic
import Mathlib.Data.List.TakeDrop
import Mathlib.Order.Lattice

/-!
# Overwriting a part of a list
-/

namespace Kerosene.Lib
variable {α : Type*} {l l' x y : List α} {i n : Nat}

/-- `l` with `x` from index `i` on; the list grows when `x` reaches past its end. -/
def splice (l : List α) (i : Nat) (x : List α) : List α := l.take i ++ x ++ l.drop (i + x.length)

theorem splice_congr (front : l.take i = l'.take i) (back : l.drop (i + x.length) = l'.drop (i + x.length)) :
    splice l i x = splice l' i x := by
  rw [splice, front, back, splice]

theorem splice_append {r : List α} (inside : i + x.length ≤ l.length) : splice (l ++ r) i x = splice l i x ++ r := by
  rw [splice, splice, List.take_append_of_le_length (by omega), List.drop_append_of_le_length inside, ← List.append_assoc]

theorem append_splice (l r : List α) (i : Nat) (x : List α) : splice (l ++ r) (l.length + i) x = l ++ splice r i x := by
  rw [splice, splice, List.take_length_add_append, Nat.add_assoc, List.drop_length_add_append, List.append_assoc,
    List.append_assoc, List.append_assoc]

theorem take_splice_eq (inside : i ≤ l.length) : (splice l i x).take (i + x.length) = l.take i ++ x :=
  List.take_left' (by rw [List.length_append, List.length_take, Nat.min_eq_left inside])

theorem drop_splice_eq (inside : i ≤ l.length) (n : Nat) :
    (splice l i x).drop (i + x.length + n) = l.drop (i + x.length + n) := by
  rw [splice, ← List.drop_drop, List.drop_left' (by rw [List.length_append, List.length_take, Nat.min_eq_left inside]),
    List.drop_drop]

theorem length_splice (inside : i ≤ l.length) : (splice l i x).length = max l.length (i + x.length) := by
  simp only [splice, List.length_append, List.length_take, List.length_drop]
  omega

theorem getElem?_splice (inside : i ≤ l.length) (after : i + x.length ≤ n) : (splice l i x)[n]? = l[n]? := by
  obtain ⟨k, rfl⟩ : ∃ k, n = i + x.length + k := ⟨n - (i + x.length), by omega⟩
  rw [← Nat.add_zero (i + x.length + k), ← List.getElem?_drop, ← List.getElem?_drop, drop_splice_eq inside]

theorem getElem?_splice_eq (inside : i ≤ l.length) :
    (splice l i x)[n]? = if i ≤ n ∧ n < i + x.length then x[n - i]? else l[n]? := by
  by_cases after : i + x.length ≤ n
  · rw [getElem?_splice inside after, if_neg (by omega)]
  have front : (l.take i).length = i := by rw [List.length_take, Nat.min_eq_left inside]
  rw [splice, List.getElem?_append_left (by rw [List.length_append]; omega)]
  by_cases before : n < i
  · rw [if_neg (by omega), List.getElem?_append_left (by omega), List.getElem?_take_of_lt before]
  · rw [if_pos (by omega), List.getElem?_append_right (by omega), front]

theorem splice_splice (inside : i ≤ l.length) : splice (splice l i x) (i + x.length) y = splice l i (x ++ y) := by
  rw [splice, take_splice_eq inside, drop_splice_eq inside, splice, List.length_append, ← List.append_assoc, Nat.add_assoc]

theorem take_splice (inside : i ≤ l.length) (enough : i + x.length ≤ n) :
    (splice l i x).take n = splice (l.take n) i x := by
  obtain ⟨k, rfl⟩ : ∃ k, n = i + x.length + k := ⟨n - (i + x.length), by omega⟩
  have front : (l.take i ++ x).length = i + x.length := by rw [List.length_append, List.length_take, Nat.min_eq_left inside]
  rw [splice, splice, List.take_append, front, List.take_of_length_le (by omega), List.take_take, Nat.min_eq_left (by omega),
    List.drop_take]

theorem take_splice_max {extra : List α} (inside : i ≤ n) (stored : n ≤ l.length) :
    (splice (l ++ extra) i x).take (max n (i + x.length)) = splice (l.take n) i x := by
  have whole : i ≤ (l ++ extra).length := by
    rw [List.length_append]
    omega
  rw [take_splice whole (le_max_right _ _)]
  refine splice_congr ?_ ?_
  · rw [List.take_take, List.take_take, Nat.min_eq_left (by omega), Nat.min_eq_left (by omega),
      List.take_append_of_le_length (by omega)]
  · rcases le_total n (i + x.length) with short | long
    · rw [max_eq_right short, List.drop_eq_nil_of_le (by rw [List.length_take]; omega),
        List.drop_eq_nil_of_le (by rw [List.length_take]; omega)]
    · rw [max_eq_left long, List.take_append_of_le_length stored]

end Kerosene.Lib
