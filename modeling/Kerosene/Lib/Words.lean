import Mathlib.Logic.Function.Basic
import Mathlib.Algebra.Group.Nat.Defs

/-!
# 32-bit words in a memory of bytes

Little endian, at any address.
-/

namespace Kerosene.Lib

abbrev Bytes := Nat → UInt8

namespace Bytes
variable {m m' : Bytes} {a b v : Nat}

def word (m : Bytes) (a : Nat) : Nat :=
  (m a).toNat + 2 ^ 8 * (m (a + 1)).toNat + 2 ^ 16 * (m (a + 2)).toNat + 2 ^ 24 * (m (a + 3)).toNat

def setWord (m : Bytes) (a v : Nat) : Bytes := fun b =>
  if a ≤ b ∧ b < a + 4 then UInt8.ofNat (v / 2 ^ (8 * (b - a))) else m b

theorem word_congr (same : ∀ i, a ≤ i → i < a + 4 → m' i = m i) : m'.word a = m.word a := by
  rw [word, word, same a (by omega) (by omega), same (a + 1) (by omega) (by omega), same (a + 2) (by omega) (by omega),
    same (a + 3) (by omega) (by omega)]

theorem setWord_of_outside (outside : b < a ∨ a + 4 ≤ b) : m.setWord a v b = m b :=
  if_neg (by omega)

theorem word_setWord_of_outside (outside : b + 4 ≤ a ∨ a + 4 ≤ b) : (m.setWord a v).word b = m.word b :=
  word_congr fun _ _ _ => setWord_of_outside (by omega)

@[simp] theorem word_setWord (fits : v < 2 ^ 32) : (m.setWord a v).word a = v := by
  have byte : ∀ k < 4, (m.setWord a v (a + k)).toNat = v / 2 ^ (8 * k) % 2 ^ 8 := by
    intro k small
    rw [setWord, if_pos (by omega), Nat.add_sub_cancel_left, UInt8.toNat_ofNat']
  have first : (m.setWord a v a).toNat = v / 2 ^ (8 * 0) % 2 ^ 8 := byte 0 (by omega)
  rw [word, first, byte 1 (by omega), byte 2 (by omega), byte 3 (by omega)]
  omega

theorem setWord_word (m : Bytes) (a : Nat) : m.setWord a (m.word a) = m := by
  funext b
  by_cases inside : a ≤ b ∧ b < a + 4
  · obtain ⟨k, rfl⟩ := Nat.exists_eq_add_of_le inside.1
    have h₀ := (m a).toNat_lt
    have h₁ := (m (a + 1)).toNat_lt
    have h₂ := (m (a + 2)).toNat_lt
    have h₃ := (m (a + 3)).toNat_lt
    rw [setWord, if_pos inside, word, Nat.add_sub_cancel_left, ← UInt8.toNat_inj, UInt8.toNat_ofNat']
    obtain rfl | rfl | rfl | rfl : k = 0 ∨ k = 1 ∨ k = 2 ∨ k = 3 := by omega
    · have same : (m (a + 0)).toNat = (m a).toNat := rfl
      rw [same, Nat.mul_zero, Nat.pow_zero, Nat.div_one]
      omega
    all_goals omega
  · exact setWord_of_outside (by omega)

end Bytes
end Kerosene.Lib
