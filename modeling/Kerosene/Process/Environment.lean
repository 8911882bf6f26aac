import Kerosene.Libc.Strings
import Kerosene.Process.ArgumentVector

/-!
# The environment of a new process

What the caller passes as the environment, `getenv` finds in the new process.
-/

namespace Kerosene.Process
open Libc (word getenv valueOf HoldsTable)

variable {memory : Libc.Memory} {stack : Stack} {low high a i : Nat} {s : List UInt8} {strings : List (List UInt8)}

/-- Between two addresses the memory of the process is as the kernel left it. -/
def Keeps (memory : Libc.Memory) (stack : Stack) (low high : Nat) : Prop :=
  ∀ a, low ≤ a → a < high → memory (BitVec.ofNat 32 a) = stack a

theorem Keeps.word_eq (keeps : Keeps memory stack low high) (left : low ≤ a) (right : a + 4 ≤ high) :
    word memory (BitVec.ofNat 32 a) = BitVec.ofNat 32 (stack.pointer a) := by
  have byte {k : Nat} (inside : k < 4) : memory (BitVec.ofNat 32 a + BitVec.ofNat 32 k) = stack (a + k) := by
    rw [← BitVec.ofNat_add]
    exact keeps (a + k) (by omega) (by omega)
  have first := keeps a left (by omega)
  have second : memory (BitVec.ofNat 32 a + 1) = stack (a + 1) := byte (by decide)
  have third : memory (BitVec.ofNat 32 a + 2) = stack (a + 2) := byte (by decide)
  have fourth : memory (BitVec.ofNat 32 a + 3) = stack (a + 3) := byte (by decide)
  rw [word, Stack.pointer, first, second, third, fourth]

theorem Keeps.holds (keeps : Keeps memory stack low high) (string : stack.StringAt a s) (noNul : 0 ∉ s) (left : low ≤ a)
    (right : a + s.length < high) : Libc.Holds memory (BitVec.ofNat 32 a) s := by
  induction s generalizing a with
  | nil => exact (keeps a left right).trans string.2
  | cons byte s ih =>
      obtain ⟨bytes, null⟩ := string
      rw [List.length_cons] at right null
      have next (j : Nat) : a + 1 + j = a + (j + 1) := by omega
      refine ⟨⟨(keeps a left (by omega)).trans (bytes 0 (Nat.succ_pos _)), fun zero => noNul (zero ▸ List.mem_cons_self)⟩, ?_⟩
      have place : BitVec.ofNat 32 a + 1 = BitVec.ofNat 32 (a + 1) := (BitVec.ofNat_add ..).symm
      rw [place]
      refine ih ⟨fun j inside => ?_, ?_⟩ (fun member => noNul (List.mem_cons_of_mem _ member)) (by omega) (by omega)
      · rw [next]
        exact bytes (j + 1) (Nat.succ_lt_succ inside)
      · rw [next]
        exact null

theorem vector_table {text : Text} {useresp used max : Nat} (areStrings : AreStrings strings)
    (holds : Holds text max 0 (encode strings)) (reaches : start strings strings.length ≤ used)
    (most : used ≤ min max (encode strings).length) (address : useresp < 2 ^ 32)
    (room : used + 4 * (strings.length + 1) < useresp) {map : StringMap} (isMap : mapOf text strings useresp used strings.length = map)
    (keeps : Keeps memory (map.write stack) map.address useresp) (few : i ≤ strings.length) :
    HoldsTable memory (BitVec.ofNat 32 (map.address + 4 * i)) (strings.drop i) := by
  have vector : Vector strings useresp strings.length map stack :=
    isMap ▸ mapOf_vector holds le_rfl reaches most address room.le stack
  have table : map.address = useresp - used - 4 * (strings.length + 1) := by rw [← isMap, mapOf]
  induction few using Nat.decreasingInduction with
  | self =>
      rw [List.drop_length]
      exact (keeps.word_eq (by omega) (by omega)).trans (congrArg (BitVec.ofNat 32) vector.last)
  | of_succ i inside ih =>
      obtain ⟨within, string⟩ := vector.string i inside
      have entry : (map.write stack).pointer (map.address + 4 * i) = useresp - used + start strings i := by
        rw [← isMap]
        exact mapOf_entry le_rfl reaches address room.le stack inside
      have next := start_succ strings within
      have last := start_mono strings (i := i + 1) (n := strings.length) inside le_rfl
      rw [entry] at string
      rw [List.drop_eq_getElem_cons within]
      refine ⟨?_, ?_⟩
      · rw [keeps.word_eq (by omega) (by omega), entry]
        refine ⟨fun null => ?_, keeps.holds string (areStrings _ (List.getElem_mem within)).2 (by omega) (by omega)⟩
        have value := congrArg BitVec.toNat null
        rw [BitVec.toNat_ofNat, Nat.mod_eq_of_lt (by omega)] at value
        have positive : 0 < useresp - used + start strings i := by omega
        exact absurd value (Nat.ne_of_gt positive)
      · have place : BitVec.ofNat 32 (map.address + 4 * i) + 4 = BitVec.ofNat 32 (map.address + 4 * (i + 1)) :=
          (BitVec.ofNat_add ..).symm
        rw [place]
        exact ih

/-- As long as a process leaves its vector alone, `getenv` gives it the values that its creator put into the environment. -/
theorem getenv_spawned (areStrings : AreStrings strings) (nonempty : strings ≠ []) {src : Text} (encodes : Encodes src strings)
    (dest : Text) (fits : (encode strings).length ≤ envsMaxLen) {useresp : Nat} (address : useresp < 2 ^ 32)
    (room : (encode strings).length + 4 * (strings.length + 1) < useresp) (stack : Stack) :
    ∃ map, parseNullSeparatedStrings useresp envsMaxLen (copyDoubleNull dest src envsMaxLen) =
        some ⟨map.address, strings.length, some map⟩ ∧
      ∀ memory, Keeps memory (map.write stack) map.address useresp → ∀ name namePtr fuel, namePtr ≠ 0 →
        Libc.Holds memory namePtr name → name.length + strings.length < fuel →
          ∃ found, getenv memory fuel (BitVec.ofNat 32 map.address) namePtr = some found ∧
            Option.Rel (Libc.Holds memory) found (valueOf name strings) := by
  have holds := encodes.copied areStrings dest envsMaxLen
  obtain ⟨used, reaches, most, done⟩ := parse_holds useresp areStrings nonempty holds (by decide)
  have some : strings.length ≠ 0 := fun none => nonempty (List.length_eq_zero_iff.mp none)
  rw [complete_all fits, if_neg some] at done
  rw [complete_all fits] at reaches
  refine ⟨_, done, fun memory keeps name namePtr fuel named held enough => ?_⟩
  have table := vector_table areStrings holds reaches most address (by omega) rfl keeps (Nat.zero_le _)
  rw [Nat.mul_zero, Nat.add_zero, List.drop_zero] at table
  refine Libc.getenv_finds (fun null => ?_) named held table enough
  have value := congrArg BitVec.toNat null
  rw [BitVec.toNat_ofNat, mapOf, Nat.mod_eq_of_lt (by dsimp only; omega)] at value
  have positive : 0 < useresp - used - 4 * (strings.length + 1) := by omega
  exact absurd value (Nat.ne_of_gt positive)

-- the text that encodes the strings, and nulls behind it
def textOf (strings : List (List UInt8)) : Text := fun i => (encode strings).getD i 0

theorem textOf_encodes (strings : List (List UInt8)) : Encodes (textOf strings) strings := by
  intro j inside
  rw [textOf, List.getD_eq_getElem?_getD, List.getElem?_eq_getElem inside, Option.getD_some]

-- `A=1`, and the name `A` elsewhere in the memory of the process
def setting : List (List UInt8) := [[65, 61, 49]]

def named : Stack := fun a => if a = 100 then 65 else 0

theorem getenv_spawned_setting : ∃ map found,
    parseNullSeparatedStrings (userStackTop - 4) envsMaxLen (copyDoubleNull (fun _ => 0) (textOf setting) envsMaxLen) =
      some ⟨map.address, 1, some map⟩ ∧
    getenv (fun p => map.write named p.toNat) 5 (BitVec.ofNat 32 map.address) 100 = some found ∧
    Option.Rel (Libc.Holds fun p => map.write named p.toNat) found (some [49]) := by
  obtain ⟨map, done, finds⟩ := getenv_spawned (show AreStrings setting by unfold AreStrings; decide) (by decide)
    (textOf_encodes setting) (fun _ => 0) (by decide) (show userStackTop - 4 < 2 ^ 32 by decide) (by decide) named
  have written : parseNullSeparatedStrings (userStackTop - 4) envsMaxLen
      (copyDoubleNull (fun _ => 0) (textOf setting) envsMaxLen) = some
        ⟨userStackTop - 17, 1, some ⟨userStackTop - 17, [userStackTop - 9], userStackTop - 9, [65, 61, 49, 0, 0]⟩⟩ := by
    decide +kernel
  have isMap : map = ⟨userStackTop - 17, [userStackTop - 9], userStackTop - 9, [65, 61, 49, 0, 0]⟩ := by
    have same := done.symm.trans written
    rw [Option.some_inj, Parsed.mk.injEq, Option.some_inj] at same
    exact same.2.2
  have keeps : Keeps (fun p => map.write named p.toNat) (map.write named) map.address (userStackTop - 4) := by
    intro a _ high
    dsimp only
    rw [BitVec.toNat_ofNat, Nat.mod_eq_of_lt (high.trans (by decide))]
  have name : Libc.Holds (fun p => map.write named p.toNat) 100 [65] := by
    rw [isMap]
    refine ⟨⟨by decide, by decide⟩, ?_⟩
    rw [Libc.Holds]
    decide
  obtain ⟨found, ran, value⟩ := finds _ keeps [65] 100 5 (by decide) name (by decide)
  exact ⟨map, found, done, ran, value⟩

end Kerosene.Process
