import Mathlib.Algebra.Order.Ring.Nat
import Kerosene.Lib.Words

/-!
# Fields in a memory of bytes

A field of `n` bytes, little endian, at any address.
-/

namespace Kerosene.Lib.Bytes
variable {m m' : Bytes} {a b n v : Nat}

def field (m : Bytes) (a : Nat) : (n : Nat) → Nat
  | 0 => 0
  | n + 1 => m.field a n + 256 ^ n * (m (a + n)).toNat

def setField (m : Bytes) (a n v : Nat) : Bytes := fun b => if a ≤ b ∧ b < a + n then UInt8.ofNat (v / 256 ^ (b - a)) else m b

theorem setField_of_outside (outside : b < a ∨ a + n ≤ b) : m.setField a n v b = m b := if_neg (by omega)

theorem field_congr (same : ∀ i, a ≤ i → i < a + n → m' i = m i) : m'.field a n = m.field a n := by
  induction n with
  | zero => rfl
  | succ n ih => rw [field, field, ih fun i low high => same i low (by omega), same (a + n) (by omega) (by omega)]

theorem field_setField_of_outside {k : Nat} (outside : b + k ≤ a ∨ a + n ≤ b) : (m.setField a n v).field b k = m.field b k :=
  field_congr fun _ _ _ => setField_of_outside (by omega)

theorem field_setField (m : Bytes) (a n v : Nat) : (m.setField a n v).field a n = v % 256 ^ n := by
  have bytes : ∀ k ≤ n, (m.setField a n v).field a k = v % 256 ^ k := by
    intro k le
    induction k with
    | zero => rw [field, pow_zero, Nat.mod_one]
    | succ k ih =>
        have here : (m.setField a n v (a + k)).toNat = v / 256 ^ k % 256 := by
          rw [setField, if_pos (by omega), Nat.add_sub_cancel_left]
          exact UInt8.toNat_ofNat'
        rw [field, ih (by omega), here, pow_succ, Nat.mod_mul]
  exact bytes n le_rfl

theorem field_shift {m m' : Bytes} {a b n : Nat} (same : ∀ i < n, m' (a + i) = m (b + i)) : m'.field a n = m.field b n := by
  induction n with
  | zero => rfl
  | succ n ih => rw [field, field, ih fun i less => same i (Nat.lt_succ_of_lt less), same n (Nat.lt_succ_self n)]

theorem field_zero {m : Bytes} {a n : Nat} (zero : ∀ i < n, m (a + i) = 0) : m.field a n = 0 := by
  induction n with
  | zero => rfl
  | succ n ih =>
      rw [field, ih fun i less => zero i (Nat.lt_succ_of_lt less), zero n (Nat.lt_succ_self n)]
      rfl

end Kerosene.Lib.Bytes
