import Kerosene.Mem.Paging
import Kerosene.Process.Arguments

/-!
# Pointers of a user process

`validate_user_buffer`, `validate_user_string` and `validate_user_double_null`, against what the kernel reads afterwards.
-/

namespace Kerosene.Process
open Mem (kernelStart)

abbrev Address := BitVec 32

abbrev Memory := Address → UInt8

def validateUserBuffer (isUser : Bool) (buf size : Address) : Bool :=
  if !isUser then true
  else
    let stop := buf + size
    if stop < buf then false else if stop > kernelStart then false else true

-- `while((uint32_t)p < KERNEL_START)`
def scanString (memory : Memory) : (fuel : Nat) → (p : Address) → Option Bool
  | 0, _ => none
  | fuel + 1, p => if p < kernelStart then if memory p = 0 then some true else scanString memory fuel (p + 1) else some false

def validateUserString (isUser : Bool) (memory : Memory) (fuel : Nat) (str : Address) : Option Bool :=
  if !isUser then some true else if str ≥ kernelStart then some false else scanString memory fuel str

-- a null behind a null
def endsAt (memory : Memory) (str : Address) (i : Nat) : Bool :=
  0 < i && memory (str + BitVec.ofNat 32 i) == 0 && memory (str + BitVec.ofNat 32 (i - 1)) == 0

def checkBytes (isUser : Bool) (memory : Memory) (str : Address) : (count i : Nat) → Bool
  | 0, _ => true
  | count + 1, i =>
      if !validateUserBuffer isUser (str + BitVec.ofNat 32 i) 1 then false
      else if endsAt memory str i then true else checkBytes isUser memory str count (i + 1)

def validateUserDoubleNull (isUser : Bool) (memory : Memory) (str : Address) (maxLen : Nat) : Bool :=
  if str = 0 then true else checkBytes isUser memory str maxLen 0

/-! ## What is read -/

-- the bytes that `copy_double_null` copies
def copied (memory : Memory) (str : Address) : (count i : Nat) → List Address
  | 0, _ => []
  | count + 1, i => (str + BitVec.ofNat 32 i) :: if endsAt memory str i then [] else copied memory str count (i + 1)

variable {memory memory' : Memory} {str buf size p : Address} {fuel count i n : Nat}

theorem kernelStart_toNat : kernelStart.toNat = 0xc0000000 := rfl

theorem validateUserBuffer_iff (buf size : Address) :
    validateUserBuffer true buf size = true ↔ buf.toNat + size.toNat ≤ kernelStart.toNat := by
  have first := buf.isLt
  have second := size.isLt
  rw [validateUserBuffer, kernelStart_toNat]
  simp only [Bool.not_true, Bool.false_eq_true, if_false, BitVec.lt_def, BitVec.toNat_add, gt_iff_lt, kernelStart_toNat]
  split_ifs with wraps above
  · simp only [false_iff]
    omega
  · simp only [false_iff]
    omega
  · simp only [true_iff]
    omega

theorem validateUserBuffer_one (p : Address) : validateUserBuffer true p 1 = true ↔ p < kernelStart := by
  rw [validateUserBuffer_iff, BitVec.lt_def]
  exact Nat.succ_le_iff

theorem checkBytes_iff (memory : Memory) (str : Address) (count i : Nat) :
    checkBytes true memory str count i = true ↔ ∀ p ∈ copied memory str count i, p < kernelStart := by
  induction count generalizing i with
  | zero => exact ⟨fun _ p member => absurd member List.not_mem_nil, fun _ => rfl⟩
  | succ count ih =>
      have here := validateUserBuffer_one (str + BitVec.ofNat 32 i)
      rw [checkBytes, copied, List.forall_mem_cons, ← here]
      by_cases below : validateUserBuffer true (str + BitVec.ofNat 32 i) 1 = true
      · rw [below]
        by_cases last : endsAt memory str i = true
        · rw [if_pos last, if_pos last]
          exact ⟨fun _ => ⟨rfl, fun p member => absurd member List.not_mem_nil⟩, fun _ => rfl⟩
        · rw [if_neg last, if_neg last]
          simp only [Bool.not_true, Bool.false_eq_true, if_false, true_and]
          exact ih (i + 1)
      · have outside : validateUserBuffer true (str + BitVec.ofNat 32 i) 1 = false := Bool.eq_false_iff.mpr below
        rw [outside]
        exact ⟨fun yes => absurd yes Bool.false_ne_true, fun both => absurd both.1 Bool.false_ne_true⟩

theorem buffer_below (buf : Address) (nonempty : size ≠ 0) :
    validateUserBuffer true buf size = true ↔ ∀ i < size.toNat, buf + BitVec.ofNat 32 i < kernelStart := by
  have positive : 0 < size.toNat := Nat.pos_of_ne_zero fun zero => nonempty (BitVec.eq_of_toNat_eq zero)
  have small := size.isLt
  have place {i : Nat} (fits : buf.toNat + i < 2 ^ 32) : (buf + BitVec.ofNat 32 i).toNat = buf.toNat + i := by
    rw [BitVec.toNat_add, BitVec.toNat_ofNat]
    omega
  rw [validateUserBuffer_iff]
  constructor
  · intro fits i less
    rw [kernelStart_toNat] at fits
    rw [BitVec.lt_def, place (by omega), kernelStart_toNat]
    omega
  · intro below
    by_contra more
    rw [kernelStart_toNat] at more
    have first := below 0 positive
    rw [BitVec.lt_def, place (by have := buf.isLt; omega), kernelStart_toNat] at first
    -- the byte at the start of the kernel
    have last := below (0xc0000000 - buf.toNat) (by omega)
    rw [BitVec.lt_def, place (by omega), kernelStart_toNat] at last
    omega

theorem scanString_iff (memory : Memory) (enough : kernelStart.toNat - p.toNat < fuel) :
    ∃ ok, scanString memory fuel p = some ok ∧
      (ok = true ↔ ∃ n, p.toNat + n < kernelStart.toNat ∧ memory (p + BitVec.ofNat 32 n) = 0) := by
  induction fuel generalizing p with
  | zero => exact absurd enough (Nat.not_lt_zero _)
  | succ fuel ih =>
      rw [kernelStart_toNat] at enough
      rw [scanString]
      by_cases below : p < kernelStart
      · rw [if_pos below]
        rw [BitVec.lt_def, kernelStart_toNat] at below
        have here : p + BitVec.ofNat 32 0 = p := BitVec.add_zero p
        by_cases null : memory p = 0
        · rw [if_pos null]
          exact ⟨true, rfl, fun _ => ⟨0, below, by rw [here]; exact null⟩, fun _ => rfl⟩
        · have next : (p + 1).toNat = p.toNat + 1 := by
            have one : (1 : Address).toNat = 1 := rfl
            rw [BitVec.toNat_add, one]
            exact Nat.mod_eq_of_lt (by omega)
          have step (n : Nat) : p + 1 + BitVec.ofNat 32 n = p + BitVec.ofNat 32 (n + 1) := by
            rw [Nat.add_comm n 1, BitVec.ofNat_add, BitVec.add_assoc]
            rfl
          obtain ⟨ok, ran, same⟩ := ih (p := p + 1) (by rw [next, kernelStart_toNat]; omega)
          rw [if_neg null]
          refine ⟨ok, ran, same.trans ⟨?_, ?_⟩⟩
          · rintro ⟨n, inside, zero⟩
            rw [next] at inside
            rw [step] at zero
            exact ⟨n + 1, by omega, zero⟩
          · rintro ⟨n, inside, zero⟩
            cases n with
            | zero =>
                rw [here] at zero
                exact absurd zero null
            | succ n => exact ⟨n, by rw [next]; omega, by rw [step]; exact zero⟩
      · rw [if_neg below]
        rw [BitVec.lt_def] at below
        refine ⟨false, rfl, fun no => absurd no Bool.false_ne_true, ?_⟩
        rintro ⟨n, inside, -⟩
        omega

-- the text at an address
def textAt (memory : Memory) (str : Address) : Text := fun i => memory (str + BitVec.ofNat 32 i)

theorem copyFrom_copied {dest : Text}
    (before : 0 < i → memory (str + BitVec.ofNat 32 (i - 1)) = memory' (str + BitVec.ofNat 32 (i - 1)))
    (same : ∀ p ∈ copied memory str count i, memory p = memory' p) :
    copyFrom (textAt memory str) count i dest = copyFrom (textAt memory' str) count i dest := by
  induction count generalizing i dest with
  | zero => rfl
  | succ count ih =>
      rw [copied, List.forall_mem_cons] at same
      obtain ⟨here, rest⟩ := same
      have ends : endsAt memory str i = true ↔ 0 < i ∧ textAt memory str i = 0 ∧ textAt memory str (i - 1) = 0 := by
        rw [endsAt, Bool.and_eq_true, Bool.and_eq_true, decide_eq_true_iff, beq_iff_eq, beq_iff_eq, and_assoc]
        rfl
      have byte : textAt memory str i = textAt memory' str i := here
      have ends' : (0 < i ∧ textAt memory' str i = 0 ∧ textAt memory' str (i - 1) = 0) ↔
          0 < i ∧ textAt memory str i = 0 ∧ textAt memory str (i - 1) = 0 := by
        refine and_congr_right fun positive => ?_
        have previous : textAt memory str (i - 1) = textAt memory' str (i - 1) := before positive
        rw [byte, previous]
      rw [copyFrom, copyFrom, byte]
      by_cases last : 0 < i ∧ textAt memory str i = 0 ∧ textAt memory str (i - 1) = 0
      · rw [byte] at last ends'
        rw [if_pos last, if_pos (ends'.mpr last)]
      · have going : endsAt memory str i ≠ true := fun stop => last (ends.mp stop)
        rw [if_neg going] at rest
        rw [byte] at last ends'
        rw [if_neg last, if_neg (mt ends'.mp last)]
        exact ih (fun _ => here) rest

/-! ## The memory of the kernel does not matter -/

section
variable (agree : ∀ p < kernelStart, memory p = memory' p)
include agree

theorem scanString_agree (fuel : Nat) (p : Address) : scanString memory' fuel p = scanString memory fuel p := by
  induction fuel generalizing p with
  | zero => rfl
  | succ fuel ih =>
      rw [scanString, scanString]
      by_cases below : p < kernelStart
      · rw [if_pos below, if_pos below, agree p below, ih]
      · rw [if_neg below, if_neg below]

theorem checkBytes_agree (before : 0 < i → str + BitVec.ofNat 32 (i - 1) < kernelStart) :
    checkBytes true memory' str count i = checkBytes true memory str count i := by
  induction count generalizing i with
  | zero => rfl
  | succ count ih =>
      rw [checkBytes, checkBytes]
      by_cases below : validateUserBuffer true (str + BitVec.ofNat 32 i) 1 = true
      · have here := (validateUserBuffer_one _).mp below
        have ends : endsAt memory' str i = endsAt memory str i := by
          rw [endsAt, endsAt, agree _ here]
          by_cases positive : 0 < i
          · rw [agree _ (before positive)]
          · rw [decide_eq_false positive, Bool.false_and, Bool.false_and]
            rfl
        rw [ends, ih (i := i + 1) fun _ => here]
      · have outside : validateUserBuffer true (str + BitVec.ofNat 32 i) 1 = false := Bool.eq_false_iff.mpr below
        rw [outside]
        rfl

/-- What is let through lies below the kernel, and neither the checks nor the copy of the arguments depend on what is above. -/
theorem validate_below (str : Address) (maxLen : Nat) (enough : kernelStart.toNat < fuel) :
    (∀ buf size : Address, size ≠ 0 →
      (validateUserBuffer true buf size = true ↔ ∀ i < size.toNat, buf + BitVec.ofNat 32 i < kernelStart)) ∧
    (∃ ok, validateUserString true memory fuel str = some ok ∧ validateUserString true memory' fuel str = some ok ∧
      (ok = true ↔ ∃ n, str.toNat + n < kernelStart.toNat ∧ memory (str + BitVec.ofNat 32 n) = 0)) ∧
    (validateUserDoubleNull true memory str maxLen = true ↔ str = 0 ∨ ∀ p ∈ copied memory str maxLen 0, p < kernelStart) ∧
    validateUserDoubleNull true memory' str maxLen = validateUserDoubleNull true memory str maxLen ∧
    (str ≠ 0 → validateUserDoubleNull true memory str maxLen = true → ∀ dest : Text,
      copyDoubleNull dest (textAt memory str) maxLen = copyDoubleNull dest (textAt memory' str) maxLen) := by
  have double (memory : Memory) : validateUserDoubleNull true memory str maxLen = true ↔
      str = 0 ∨ ∀ p ∈ copied memory str maxLen 0, p < kernelStart := by
    rw [validateUserDoubleNull, ← checkBytes_iff]
    by_cases null : str = 0
    · rw [if_pos null]
      exact ⟨fun _ => Or.inl null, fun _ => rfl⟩
    · rw [if_neg null]
      exact (or_iff_right null).symm
  refine ⟨fun buf size => buffer_below buf, ?_, double memory, ?_, fun present passed dest => ?_⟩
  · rw [validateUserString, validateUserString, Bool.not_true, if_neg Bool.false_ne_true, if_neg Bool.false_ne_true,
      scanString_agree agree]
    by_cases above : str ≥ kernelStart
    · rw [if_pos above]
      refine ⟨false, rfl, rfl, fun no => absurd no Bool.false_ne_true, ?_⟩
      rintro ⟨n, inside, -⟩
      rw [ge_iff_le, BitVec.le_def] at above
      omega
    · rw [if_neg above]
      obtain ⟨ok, ran, exactly⟩ := scanString_iff memory (p := str) (lt_of_le_of_lt (Nat.sub_le _ _) enough)
      exact ⟨ok, ran, ran, exactly⟩
  · rw [validateUserDoubleNull, validateUserDoubleNull, checkBytes_agree agree fun positive => absurd positive (lt_irrefl 0)]
  · have below := ((double memory).mp passed).resolve_left present
    exact copyFrom_copied (fun positive => absurd positive (lt_irrefl 0)) fun p member => agree p (below p member)

end

-- nothing but nulls below the kernel, and a letter in its first byte
def atTheBorder (p : Address) : UInt8 := if p = kernelStart then 97 else 0

theorem validate_below_border :
    (∀ buf size : Address, size ≠ 0 →
      (validateUserBuffer true buf size = true ↔ ∀ i < size.toNat, buf + BitVec.ofNat 32 i < kernelStart)) ∧
    (∃ ok, validateUserString true (fun _ => 0) (kernelStart.toNat + 1) (kernelStart - 2) = some ok ∧
      validateUserString true atTheBorder (kernelStart.toNat + 1) (kernelStart - 2) = some ok ∧
      (ok = true ↔ ∃ n, (kernelStart - 2).toNat + n < kernelStart.toNat ∧ (0 : UInt8) = 0)) ∧
    (validateUserDoubleNull true (fun _ => 0) (kernelStart - 2) 4096 = true ↔
      kernelStart - 2 = 0 ∨ ∀ p ∈ copied (fun _ => 0) (kernelStart - 2) 4096 0, p < kernelStart) ∧
    validateUserDoubleNull true atTheBorder (kernelStart - 2) 4096 =
      validateUserDoubleNull true (fun _ => 0) (kernelStart - 2) 4096 ∧
    (kernelStart - 2 ≠ 0 → validateUserDoubleNull true (fun _ => 0) (kernelStart - 2) 4096 = true → ∀ dest : Text,
      copyDoubleNull dest (textAt (fun _ => 0) (kernelStart - 2)) 4096 =
        copyDoubleNull dest (textAt atTheBorder (kernelStart - 2)) 4096) :=
  validate_below (fun _ below => (if_neg (BitVec.ne_of_lt below)).symm) (kernelStart - 2) 4096 (Nat.lt_succ_self _)

end Kerosene.Process
