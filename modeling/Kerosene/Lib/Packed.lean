import Mathlib.Algebra.Order.Ring.Nat
import Mathlib.Data.List.TakeDrop

/-!
# Packed records

A packed structure is its fields one after the other, without padding; a field of `w` bytes is a
number below `256 ^ w`, its lowest byte first. A layout lists the widths.
-/

namespace Kerosene.Lib
variable {n w : Nat} {bytes : List UInt8} {layout values : List Nat}

def encode : (width : Nat) → Nat → List UInt8
  | 0, _ => []
  | width + 1, n => UInt8.ofNat n :: encode width (n / 256)

def decode : List UInt8 → Nat
  | [] => 0
  | byte :: bytes => byte.toNat + 256 * decode bytes

@[simp] theorem length_encode (w n : Nat) : (encode w n).length = w := by
  induction w generalizing n with
  | zero => rfl
  | succ w ih => rw [encode, List.length_cons, ih]

theorem decode_encode (w n : Nat) : decode (encode w n) = n % 256 ^ w := by
  induction w generalizing n with
  | zero => rw [encode, decode, pow_zero, Nat.mod_one]
  | succ w ih =>
      have byte : (UInt8.ofNat n).toNat = n % 256 := UInt8.toNat_ofNat'
      rw [encode, decode, ih, byte, ← Nat.mod_mul, ← pow_succ']

def pack : (layout values : List Nat) → List UInt8
  | [], _ => []
  | w :: layout, values => encode w (values.headD 0) ++ pack layout values.tail

def unpack : (layout : List Nat) → List UInt8 → List Nat
  | [], _ => []
  | w :: layout, bytes => decode (bytes.take w) :: unpack layout (bytes.drop w)

@[simp] theorem length_pack (layout values : List Nat) : (pack layout values).length = layout.sum := by
  induction layout generalizing values with
  | nil => rfl
  | cons w layout ih => rw [pack, List.length_append, length_encode, ih, List.sum_cons]

def Fits (w n : Nat) : Prop := n < 256 ^ w

theorem unpack_pack (fits : List.Forall₂ Fits layout values) : unpack layout (pack layout values) = values := by
  induction fits with
  | nil => rfl
  | @cons w n layout values here _ ih =>
      rw [pack, unpack, List.headD_cons, List.tail_cons, List.take_left' (length_encode w n),
        List.drop_left' (length_encode w n), ih, decode_encode, Nat.mod_eq_of_lt here]

end Kerosene.Lib
