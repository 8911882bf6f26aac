import Mathlib.Data.BitVec
import Mathlib.Logic.Function.Basic

/-!
# `memmove`

A pointer is a word, and `p + i` may not wrap around. The direction of the copy is the one in which no byte is
written before it is read.
-/

namespace Kerosene.Libc

abbrev Pointer := BitVec 32

abbrev Memory := Pointer → UInt8

-- `dst[i] = src[i]`
def copyByte (dst src : Pointer) (i : Nat) (memory : Memory) : Memory :=
  Function.update memory (dst + BitVec.ofNat 32 i) (memory (src + BitVec.ofNat 32 i))

-- `for(size_t i = 0; i < size; i++)`
def copyUp (dst src : Pointer) : (size : Nat) → Memory → Memory
  | 0, memory => memory
  | i + 1, memory => copyByte dst src i (copyUp dst src i memory)

-- `for(size_t i = size; i != 0; i--)`
def copyDown (dst src : Pointer) : (size : Nat) → Memory → Memory
  | 0, memory => memory
  | i + 1, memory => copyDown dst src i (copyByte dst src i memory)

def memmove (memory : Memory) (dstptr srcptr : Pointer) (size : BitVec 32) : Pointer × Memory :=
  (dstptr, if dstptr < srcptr then copyUp dstptr srcptr size.toNat memory else copyDown dstptr srcptr size.toNat memory)

variable {dst src p q : Pointer} {memory : Memory} {n i j : Nat}

theorem toNat_add_ofNat (inside : p.toNat + i < 2 ^ 32) : (p + BitVec.ofNat 32 i).toNat = p.toNat + i := by
  rw [BitVec.toNat_add, BitVec.toNat_ofNat, Nat.mod_eq_of_lt (show i < 2 ^ 32 by omega)]
  exact Nat.mod_eq_of_lt inside

theorem add_ofNat_ne (other : p.toNat + i ≠ q.toNat + j) (inside : p.toNat + i < 2 ^ 32) (inside' : q.toNat + j < 2 ^ 32) :
    p + BitVec.ofNat 32 i ≠ q + BitVec.ofNat 32 j := by
  intro same
  have equal := congrArg BitVec.toNat same
  rw [toNat_add_ofNat inside, toNat_add_ofNat inside'] at equal
  exact other equal

/-- The first `n` bytes are what the source held, and nothing else has changed. -/
structure Moved (dst src : Pointer) (n : Nat) (before after : Memory) : Prop where
  copied : ∀ i < n, after (dst + BitVec.ofNat 32 i) = before (src + BitVec.ofNat 32 i)
  others : ∀ a, (∀ i < n, a ≠ dst + BitVec.ofNat 32 i) → after a = before a

section
variable (dstFits : dst.toNat + n ≤ 2 ^ 32) (srcFits : src.toNat + n ≤ 2 ^ 32)
include dstFits srcFits

theorem copyUp_moved (below : dst.toNat ≤ src.toNat) : Moved dst src n memory (copyUp dst src n memory) := by
  induction n with
  | zero => exact ⟨fun i inside => absurd inside (Nat.not_lt_zero i), fun _ _ => rfl⟩
  | succ n ih =>
      obtain ⟨copied, others⟩ := ih (by omega) (by omega)
      have unread : copyUp dst src n memory (src + BitVec.ofNat 32 n) = memory (src + BitVec.ofNat 32 n) :=
        others _ fun i inside => add_ofNat_ne (by omega) (by omega) (by omega)
      refine ⟨fun i inside => ?_, fun a outside => ?_⟩
      · rw [copyUp, copyByte, unread]
        rcases Nat.lt_succ_iff_lt_or_eq.mp inside with earlier | rfl
        · have written : dst + BitVec.ofNat 32 i ≠ dst + BitVec.ofNat 32 n := add_ofNat_ne (by omega) (by omega) (by omega)
          rw [Function.update_of_ne written, copied i earlier]
        · exact Function.update_self ..
      · rw [copyUp, copyByte, Function.update_of_ne (outside n (Nat.lt_succ_self n))]
        exact others a fun i inside => outside i (Nat.lt_succ_of_lt inside)

theorem copyDown_moved (above : src.toNat ≤ dst.toNat) : Moved dst src n memory (copyDown dst src n memory) := by
  induction n generalizing memory with
  | zero => exact ⟨fun i inside => absurd inside (Nat.not_lt_zero i), fun _ _ => rfl⟩
  | succ n ih =>
      obtain ⟨copied, others⟩ : Moved dst src n (copyByte dst src n memory) (copyDown dst src n (copyByte dst src n memory)) :=
        ih (by omega) (by omega)
      refine ⟨fun i inside => ?_, fun a outside => ?_⟩
      · rcases Nat.lt_succ_iff_lt_or_eq.mp inside with earlier | rfl
        · have unwritten : src + BitVec.ofNat 32 i ≠ dst + BitVec.ofNat 32 n := add_ofNat_ne (by omega) (by omega) (by omega)
          rw [copyDown, copied i earlier, copyByte, Function.update_of_ne unwritten]
        · rw [copyDown, others _ fun j less => add_ofNat_ne (by omega) (by omega) (by omega), copyByte, Function.update_self]
      · rw [copyDown, others a fun i inside => outside i (Nat.lt_succ_of_lt inside), copyByte,
          Function.update_of_ne (outside n (Nat.lt_succ_self n))]

end

/-- However the two ranges overlap, the destination gets what the source held. -/
theorem memmove_moves (memory : Memory) (dst src : Pointer) (size : BitVec 32) (dstFits : dst.toNat + size.toNat ≤ 2 ^ 32)
    (srcFits : src.toNat + size.toNat ≤ 2 ^ 32) :
    (memmove memory dst src size).1 = dst ∧
      (∀ i : BitVec 32, i < size → (memmove memory dst src size).2 (dst + i) = memory (src + i)) ∧
      ∀ a, (∀ i : BitVec 32, i < size → a ≠ dst + i) → (memmove memory dst src size).2 a = memory a := by
  have moved : Moved dst src size.toNat memory (memmove memory dst src size).2 := by
    rw [memmove]
    dsimp only
    split_ifs with below
    · exact copyUp_moved dstFits srcFits (Nat.le_of_lt (BitVec.lt_def.mp below))
    · exact copyDown_moved dstFits srcFits (Nat.le_of_not_lt fun less => below (BitVec.lt_def.mpr less))
  refine ⟨rfl, fun i inside => ?_, fun a outside => moved.others a fun i inside => ?_⟩
  · have copied := moved.copied i.toNat (BitVec.lt_def.mp inside)
    rwa [BitVec.ofNat_toNat, BitVec.setWidth_eq] at copied
  · have small : i < 2 ^ 32 := inside.trans size.isLt
    refine outside _ (BitVec.lt_def.mpr ?_)
    rwa [BitVec.toNat_ofNat, Nat.mod_eq_of_lt small]

-- three bytes, one byte up
theorem memmove_moves_up : (memmove (fun a => UInt8.ofNat a.toNat) 5 4 3).2 (5 + 2) = 6 :=
  (memmove_moves (fun a => UInt8.ofNat a.toNat) 5 4 3 (by decide) (by decide)).2.1 2 (by decide)

end Kerosene.Libc
