import Kerosene.Process.Arguments
import Mathlib.Algebra.Group.Nat.Defs

/-!
# The argument vector on the new stack

A list of strings goes through `copy_double_null` into a buffer of `max` bytes, and from the buffer onto the stack of the new
process: the bytes below the old stack pointer, and below them a pointer to each string and a `NULL`.
-/

namespace Kerosene.Process

/-! ## What a parse writes -/

abbrev Stack := Nat → UInt8

namespace Stack

def store (memory : Stack) (addr : Nat) (bytes : List UInt8) : Stack :=
  fun a => if addr ≤ a then (bytes[a - addr]?).getD (memory a) else memory a

-- a `char*`, its low byte first
def pointerBytes (value : Nat) : List UInt8 :=
  [UInt8.ofNat value, UInt8.ofNat (value / 256), UInt8.ofNat (value / 65536), UInt8.ofNat (value / 16777216)]

def pointer (memory : Stack) (addr : Nat) : Nat :=
  (memory addr).toNat + 256 * (memory (addr + 1)).toNat + 65536 * (memory (addr + 2)).toNat + 16777216 * (memory (addr + 3)).toNat

def storePointers (memory : Stack) (addr : Nat) : List Nat → Stack
  | [] => memory
  | value :: rest => storePointers (memory.store addr (pointerBytes value)) (addr + 4) rest

variable {memory : Stack} {addr a : Nat} {bytes : List UInt8}

theorem store_inside {i : Nat} (inside : i < bytes.length) : memory.store addr bytes (addr + i) = bytes[i] := by
  rw [store, if_pos (Nat.le_add_right addr i), Nat.add_sub_cancel_left, List.getElem?_eq_getElem inside, Option.getD_some]

theorem store_outside (outside : a < addr ∨ addr + bytes.length ≤ a) : memory.store addr bytes a = memory a := by
  rw [store]
  split_ifs with after
  · rw [List.getElem?_eq_none (by omega), Option.getD_none]
  · rfl

theorem pointer_store {value : Nat} (small : value < 2 ^ 32) : (memory.store addr (pointerBytes value)).pointer addr = value := by
  have length : (pointerBytes value).length = 4 := rfl
  have first : memory.store addr (pointerBytes value) addr = UInt8.ofNat value :=
    store_inside (i := 0) (by omega)
  have second : memory.store addr (pointerBytes value) (addr + 1) = UInt8.ofNat (value / 256) :=
    store_inside (i := 1) (by omega)
  have third : memory.store addr (pointerBytes value) (addr + 2) = UInt8.ofNat (value / 65536) :=
    store_inside (i := 2) (by omega)
  have fourth : memory.store addr (pointerBytes value) (addr + 3) = UInt8.ofNat (value / 16777216) :=
    store_inside (i := 3) (by omega)
  rw [pointer, first, second, third, fourth]
  simp only [UInt8.toNat_ofNat']
  omega

theorem storePointers_outside {values : List Nat} (outside : a < addr ∨ addr + 4 * values.length ≤ a) :
    memory.storePointers addr values a = memory a := by
  induction values generalizing memory addr with
  | nil => rfl
  | cons value rest ih =>
      rw [List.length_cons] at outside
      rw [storePointers, ih (by omega), store_outside]
      rw [show (pointerBytes value).length = 4 from rfl]
      omega

theorem pointer_congr (memory memory' : Stack) (same : ∀ i < 4, memory' (addr + i) = memory (addr + i)) :
    memory'.pointer addr = memory.pointer addr := by
  rw [pointer, pointer, same 1 (by decide), same 2 (by decide), same 3 (by decide)]
  rw [show memory' addr = memory addr from same 0 (by decide)]

theorem storePointers_pointer (memory : Stack) (addr : Nat) {values : List Nat} (small : ∀ value ∈ values, value < 2 ^ 32) {i : Nat}
    (inside : i < values.length) : (memory.storePointers addr values).pointer (addr + 4 * i) = values[i] := by
  induction values generalizing memory addr i with
  | nil => exact absurd inside (Nat.not_lt_zero i)
  | cons value rest ih =>
      rw [storePointers]
      cases i with
      | zero =>
          -- the later entries do not reach the first one
          rw [pointer_congr (memory.store addr (pointerBytes value)) _ fun i below => storePointers_outside (by omega)]
          exact pointer_store (small value List.mem_cons_self)
      | succ i =>
          have here := ih (memory.store addr (pointerBytes value)) (addr + 4)
            (fun value member => small value (List.mem_cons_of_mem _ member)) (Nat.lt_of_succ_lt_succ inside)
          rw [List.getElem_cons_succ, ← here]
          congr 1
          omega

end Stack

/-- The strings are copied, and the table is filled from the first entry to the closing `NULL`. -/
def StringMap.write (map : StringMap) (memory : Stack) : Stack :=
  (memory.store map.truncStrings map.bytes).storePointers map.address (map.entries ++ [0])

def Stack.StringAt (memory : Stack) (addr : Nat) (string : List UInt8) : Prop :=
  (∀ j (inside : j < string.length), memory (addr + j) = string[j]) ∧ memory (addr + string.length) = 0

/-! ## The encoding of a list -/

def encode (strings : List (List UInt8)) : List UInt8 := strings.flatMap (· ++ [0]) ++ [0]

/-- Where string `i` begins, and for the number of strings where the final zero is. -/
def start : List (List UInt8) → Nat → Nat
  | s :: rest, i + 1 => s.length + 1 + start rest i
  | _, _ => 0

/-- Where the zero behind string `i` is. -/
def nullAt (strings : List (List UInt8)) (i : Nat) : Nat := start strings i + (strings.getD i []).length

/-- The strings whose zero comes before the last of `max` bytes. -/
def complete (max : Nat) (strings : List (List UInt8)) : Nat :=
  (List.range strings.length).countP fun i => nullAt strings i < max - 1

variable {s : List UInt8} {rest strings : List (List UInt8)} {max i : Nat}

theorem encode_cons (s : List UInt8) (rest : List (List UInt8)) : encode (s :: rest) = s ++ 0 :: encode rest := by
  simp [encode]

theorem complete_cons : complete max (s :: rest) = if s.length + 1 < max then complete (max - (s.length + 1)) rest + 1 else 0 := by
  have later : ∀ i, nullAt (s :: rest) (i + 1) = s.length + 1 + nullAt rest i := fun i => by
    simp [nullAt, start, Nat.add_assoc]
  have first : nullAt (s :: rest) 0 = s.length := Nat.zero_add _
  rw [complete, List.length_cons, List.range_succ_eq_map, List.countP_cons, List.countP_map, first]
  split_ifs with here inside inside
  · rw [complete]
    congr 1
    apply List.countP_congr
    intro i _
    simp only [Function.comp, Nat.succ_eq_add_one, later, decide_eq_true_eq]
    omega
  · simp only [decide_eq_true_eq] at here
    omega
  · simp only [decide_eq_true_eq] at here
    omega
  · rw [Nat.add_zero, List.countP_eq_zero]
    intro i _
    simp only [Function.comp, Nat.succ_eq_add_one, later, decide_eq_true_eq]
    omega

theorem complete_le : complete max strings ≤ strings.length :=
  List.countP_le_length.trans (List.length_range ..).le

/-! ## Parsing an encoding -/

/-- The texts that a list of arguments can have. -/
def AreStrings (strings : List (List UInt8)) : Prop := ∀ s ∈ strings, s ≠ [] ∧ 0 ∉ s

/-- From `from` on a text has the bytes of a list, as far as a buffer of `max` bytes goes. -/
def Holds (text : Text) (max i : Nat) (bytes : List UInt8) : Prop :=
  ∀ j (inside : j < bytes.length), i + j < max → text (i + j) = bytes[j]

variable {text : Text} {n count useresp : Nat}

theorem Holds.append {bytes bytes' : List UInt8} (holds : Holds text max i (bytes ++ bytes')) :
    Holds text max i bytes ∧ Holds text max (i + bytes.length) bytes' := by
  constructor
  · intro j inside below
    rw [holds j (by rw [List.length_append]; omega) below, List.getElem_append_left]
  · intro j inside below
    have here := holds (bytes.length + j) (by rw [List.length_append]; omega) (by omega)
    rw [← Nat.add_assoc] at here
    rw [here, List.getElem_append_right (Nat.le_add_right _ _)]
    simp only [Nat.add_sub_cancel_left]

theorem stringEnd_holds (noNul : 0 ∉ s) (holds : Holds text max i (s ++ 0 :: bytes)) (inside : i ≤ max) :
    stringEnd text (max - i) i = min (i + s.length) max := by
  obtain ⟨least, most⟩ := stringEnd_bounds (s := text) (i := i) (n := max - i)
  have null := stringEnd_null (s := text) (i := i) (n := max - i)
  have before := fun k => stringEnd_text (s := text) (i := i) (n := max - i) (k := k)
  generalize stringEnd text (max - i) i = last at *
  obtain ⟨string, zero⟩ := holds.append
  have notLess : last < max → i + s.length ≤ last := by
    intro less
    by_contra short
    have here := string (last - i) (by omega) (by omega)
    rw [show i + (last - i) = last by omega, null (by omega)] at here
    exact noNul (here ▸ List.getElem_mem _)
  have notMore : ¬ i + s.length < last := by
    intro more
    have here := zero 0 (by simp) (by omega)
    exact before (i + s.length) (by omega) more here
  omega

/-- By induction on the strings that are left. -/
theorem scanStrings_holds (count : Nat) (areStrings : AreStrings strings) (nonempty : strings ≠ [])
    (holds : Holds text max i (encode strings)) (inside : i < max) (rounds : max ≤ i + n) :
    (scanStrings text max n i count).2 = count + complete (max - i) strings ∧
      i + start strings (complete (max - i) strings) ≤ (scanStrings text max n i count).1 ∧
      (scanStrings text max n i count).1 ≤ min max (i + (encode strings).length) := by
  induction strings generalizing i n count with
  | nil => exact absurd rfl nonempty
  | cons s rest ih =>
      obtain ⟨text', noNul⟩ := areStrings s List.mem_cons_self
      have positive : 0 < s.length := List.length_pos_iff.mpr text'
      rw [encode_cons] at holds
      have last := stringEnd_holds noNul holds inside.le
      have length : (encode (s :: rest)).length = s.length + 1 + (encode rest).length := by
        rw [encode_cons, List.length_append, List.length_cons]
        omega
      cases n with
      | zero => omega
      | succ n =>
          rw [scanStrings, if_pos inside, last, complete_cons, length]
          dsimp only
          by_cases room : s.length + 1 < max - i
          · have later := (holds.append).2
            have next : Holds text max (i + s.length + 1) (encode rest) := fun j inner below => by
              have here := later (j + 1) (by rw [List.length_cons]; omega) (by omega)
              rwa [List.getElem_cons_succ, show i + s.length + (j + 1) = i + s.length + 1 + j by omega] at here
            rw [if_pos (by omega), if_pos room, show min (i + s.length) max = i + s.length by omega]
            cases rest with
            | nil =>
                rw [if_pos (show text (i + s.length + 1) = 0 from next 0 (by decide) (by omega))]
                simp only [complete, List.length_nil, List.range_zero, List.countP_nil, start]
                rw [show (encode []).length = 1 from rfl]
                exact ⟨trivial, by omega, by omega⟩
            | cons s' rest' =>
                obtain ⟨text'', noNul'⟩ := areStrings s' (List.mem_cons_of_mem _ List.mem_cons_self)
                have further : text (i + s.length + 1) ≠ 0 := by
                  rw [encode_cons] at next
                  have here := next.append.1
                  intro zero
                  exact noNul' (zero ▸ here 0 (List.length_pos_iff.mpr text'') (by omega) ▸ List.getElem_mem _)
                rw [if_neg further]
                have := ih (n := n) (count + 1) (fun s member => areStrings s (List.mem_cons_of_mem _ member))
                  (List.cons_ne_nil _ _) next (by omega) (by omega)
                rw [show max - (i + s.length + 1) = max - i - (s.length + 1) by omega] at this
                rw [start]
                omega
          · rw [if_neg (by omega), if_neg room]
            simp only [start]
            omega

/-! ## Where the strings are -/

variable {bytes tail : List UInt8}

theorem start_take : (h : i ≤ n) → start (strings.take n) i = start strings i := by
  induction strings generalizing i n with
  | nil => simp
  | cons s rest ih =>
      intro h
      cases n with
      | zero =>
          obtain rfl : i = 0 := by omega
          rfl
      | succ n =>
          cases i with
          | zero => rfl
          | succ i => rw [List.take_succ_cons, start, start, ih (by omega)]

theorem start_length : start strings strings.length = (strings.flatMap (· ++ [0])).length := by
  induction strings with
  | nil => rfl
  | cons s rest ih =>
      rw [List.length_cons, start, ih, List.flatMap_cons, List.length_append, List.length_append]
      rfl

theorem start_succ (strings : List (List UInt8)) (inside : i < strings.length) :
    start strings (i + 1) = start strings i + strings[i].length + 1 := by
  induction strings generalizing i with
  | nil => exact absurd inside (Nat.not_lt_zero i)
  | cons s rest ih =>
      cases i with
      | zero =>
          rw [start, List.getElem_cons_zero]
          cases rest <;> simp [start]
      | succ i =>
          have := ih (Nat.lt_of_succ_lt_succ inside)
          rw [start, start, List.getElem_cons_succ]
          omega

theorem start_mono (strings : List (List UInt8)) (below : i ≤ n) (inside : n ≤ strings.length) : start strings i ≤ start strings n := by
  induction n with
  | zero =>
      obtain rfl : i = 0 := by omega
      exact Nat.le_refl _
  | succ n ih =>
      rcases Nat.eq_or_lt_of_le below with rfl | less
      · exact Nat.le_refl _
      · have := ih (by omega) (by omega)
        have := start_succ strings (i := n) (by omega)
        omega

theorem Holds.string {k : Nat} (holds : Holds text max k (encode strings)) (inside : i < strings.length) :
    Holds text max (k + start strings i) (strings[i] ++ [0]) := by
  induction strings generalizing i k with
  | nil => exact absurd inside (Nat.not_lt_zero i)
  | cons s rest ih =>
      rw [encode_cons, List.append_cons] at holds
      cases i with
      | zero => exact holds.append.1
      | succ i =>
          have later := ih holds.append.2 (Nat.lt_of_succ_lt_succ inside)
          rw [List.length_append, List.length_singleton, Nat.add_assoc] at later
          exact later

theorem fillMap_strings (strings : List (List UInt8)) (current : Nat) (tail : List UInt8) (noNul : ∀ s ∈ strings, 0 ∉ s) :
    fillMap current (strings.flatMap (· ++ [0]) ++ tail) strings.length =
      some ((List.range strings.length).map fun i => current + start strings i) := by
  induction strings generalizing current with
  | nil => rfl
  | cons s rest ih =>
      have text : ∀ b ∈ s, decide (b ≠ 0) = true := fun b member =>
        decide_eq_true fun zero => noNul s List.mem_cons_self (zero ▸ member)
      have split : (s :: rest).flatMap (· ++ [0]) ++ tail = s ++ 0 :: (rest.flatMap (· ++ [0]) ++ tail) := by simp
      rw [split, List.length_cons, fillMap, List.dropWhile_append_of_pos text, List.takeWhile_append_of_pos text]
      simp only [ne_eq, not_true_eq_false, decide_false, Bool.false_eq_true, not_false_eq_true, List.dropWhile_cons_of_neg,
        List.takeWhile_cons_of_neg, List.append_nil, ih _ fun s member => noNul s (List.mem_cons_of_mem _ member)]
      rw [List.range_succ_eq_map, List.map_cons, List.map_map]
      simp only [Option.bind_eq_bind, Option.bind_some, Option.pure_def, start, Nat.add_zero, Function.comp_def, Nat.add_assoc]

theorem encode_length : (encode strings).length = start strings strings.length + 1 := by
  rw [encode, List.length_append, ← start_length]
  rfl

theorem encode_clean (areStrings : AreStrings strings) {j : Nat} (before : j + 2 < (encode strings).length) :
    ¬ ((encode strings)[j]? = some 0 ∧ (encode strings)[j + 1]? = some 0) := by
  induction strings generalizing j with
  | nil => exact absurd before (by simp [encode])
  | cons s rest ih =>
      obtain ⟨-, noNul⟩ := areStrings s List.mem_cons_self
      rw [encode_cons, List.length_append, List.length_cons] at before
      rw [encode_cons]
      rcases Nat.lt_trichotomy j s.length with string | zero | later
      · rw [List.getElem?_append_left string]
        exact fun both => noNul (List.mem_of_getElem? both.1)
      · subst zero
        rw [List.getElem?_append_right (by omega), List.getElem?_append_right (by omega), Nat.add_sub_cancel_left,
          List.getElem?_cons_succ]
        cases rest with
        | nil => simp [encode] at before
        | cons s' rest' =>
            obtain ⟨text, noNul'⟩ := areStrings s' (List.mem_cons_of_mem _ List.mem_cons_self)
            rw [encode_cons, List.getElem?_append_left (List.length_pos_iff.mpr text)]
            exact fun both => noNul' (List.mem_of_getElem? both.2)
      · obtain ⟨k, rfl⟩ := Nat.exists_eq_add_of_lt later
        have next := ih (fun s member => areStrings s (List.mem_cons_of_mem _ member)) (j := k) (by omega)
        rw [List.getElem?_append_right (by omega), List.getElem?_append_right (by omega)]
        rwa [show s.length + k + 1 - s.length = k + 1 by omega, show s.length + k + 1 + 1 - s.length = k + 1 + 1 by omega,
          List.getElem?_cons_succ, List.getElem?_cons_succ]

/-- The text begins with the encoding of the list. -/
def Encodes (text : Text) (strings : List (List UInt8)) : Prop :=
  ∀ j (inside : j < (encode strings).length), text j = (encode strings)[j]

theorem Encodes.clean (encodes : Encodes src strings) (areStrings : AreStrings strings) {k : Nat}
    (inside : k < (encode strings).length) : Clean src k := by
  intro j positive before double
  have clean := encode_clean areStrings (j := j - 1) (by omega)
  rw [List.getElem?_eq_getElem (by omega), List.getElem?_eq_getElem (by omega), ← encodes, ← encodes,
    show j - 1 + 1 = j by omega] at clean
  exact clean ⟨congrArg some double.2, congrArg some double.1⟩

theorem Encodes.copied (encodes : Encodes src strings) (areStrings : AreStrings strings) (dest : Text) (max : Nat) :
    Holds (copyDoubleNull dest src max) max 0 (encode strings) := by
  intro j inside below
  rw [Nat.zero_add] at below ⊢
  rw [copyDoubleNull_clean (encodes.clean areStrings inside) below]
  exact encodes j inside

/-! ## The vector -/

variable {used : Nat}

theorem buffer_bytes (holds : Holds text max 0 (encode strings)) (c : Nat) (few : c ≤ strings.length)
    (reaches : start strings c ≤ used) (most : used ≤ min max (encode strings).length) :
    (List.range used).map text = (strings.take c).flatMap (· ++ [0]) ++ ((List.range used).map text).drop (start strings c) := by
  have length : ((strings.take c).flatMap (· ++ [0])).length = start strings c := by
    rw [← start_length, List.length_take, Nat.min_eq_left few, start_take (Nat.le_refl c)]
  have split : encode strings = (strings.take c).flatMap (· ++ [0]) ++ ((strings.drop c).flatMap (· ++ [0]) ++ [0]) := by
    rw [encode, ← List.append_assoc, ← List.flatMap_append, List.take_append_drop]
  have first : ((List.range used).map text).take (start strings c) = (strings.take c).flatMap (· ++ [0]) := by
    refine List.ext_getElem (by rw [List.length_take, List.length_map, List.length_range, length]; omega) fun j inside inside' => ?_
    have here := holds j (by rw [split, List.length_append]; omega) (by omega)
    rw [Nat.zero_add] at here
    rw [List.getElem_take, List.getElem_map, List.getElem_range, here]
    simp only [split, List.getElem_append_left inside']
  rw [← first, List.take_append_drop]

/-- The map of the first `c` strings, with `used` bytes of the buffer. -/
def mapOf (text : Text) (strings : List (List UInt8)) (useresp used c : Nat) : StringMap where
  address := useresp - used - 4 * (c + 1)
  entries := (List.range c).map fun i => useresp - used + start strings i
  truncStrings := useresp - used
  bytes := (List.range used).map text

theorem parse_holds (useresp : Nat) (areStrings : AreStrings strings) (nonempty : strings ≠ [])
    (holds : Holds text max 0 (encode strings))
    (two : 2 ≤ max) : ∃ used, start strings (complete max strings) ≤ used ∧ used ≤ min max (encode strings).length ∧
      parseNullSeparatedStrings useresp max text = some
        (if complete max strings = 0 then ⟨useresp, 0, none⟩
        else ⟨(mapOf text strings useresp used (complete max strings)).address, complete max strings,
          some (mapOf text strings useresp used (complete max strings))⟩) := by
  obtain ⟨counted, reaches, most⟩ := scanStrings_holds (n := max) 0 areStrings nonempty holds (by omega) (by omega)
  rw [Nat.sub_zero, Nat.zero_add] at counted reaches
  rw [Nat.zero_add] at most
  have first : text 0 ≠ 0 := by
    cases strings with
    | nil => exact absurd rfl nonempty
    | cons s rest =>
        obtain ⟨text', noNul⟩ := areStrings s List.mem_cons_self
        rw [encode_cons] at holds
        have here := holds.append.1 0 (List.length_pos_iff.mpr text') (by omega)
        exact fun zero => noNul (zero ▸ here ▸ List.getElem_mem _)
  refine ⟨_, reaches, most, ?_⟩
  rw [parseNullSeparatedStrings, if_neg first]
  dsimp only
  rw [counted]
  split_ifs with none
  · rfl
  · have few : complete max strings ≤ strings.length := complete_le
    have bytes := buffer_bytes holds _ few reaches most
    have filled := fillMap_strings (strings.take (complete max strings)) (useresp - (scanStrings text max max 0 0).1)
      (((List.range (scanStrings text max max 0 0).1).map text).drop (start strings (complete max strings))) fun s member =>
        (areStrings s (List.mem_of_mem_take member)).2
    have entries : ((List.range (complete max strings)).map fun i =>
        useresp - (scanStrings text max max 0 0).1 + start (strings.take (complete max strings)) i) =
          (List.range (complete max strings)).map fun i => useresp - (scanStrings text max max 0 0).1 + start strings i :=
      List.map_congr_left fun i member => by rw [start_take (List.mem_range.mp member).le]
    rw [List.length_take, Nat.min_eq_left few, ← bytes, entries] at filled
    rw [filled]
    rfl

/-- What a new process finds below the old stack pointer: `count` strings, and nothing else is written. -/
structure Vector (strings : List (List UInt8)) (useresp count : Nat) (map : StringMap) (memory : Stack) : Prop where
  string : ∀ i < count, ∃ inside : i < strings.length,
    (map.write memory).StringAt ((map.write memory).pointer (map.address + 4 * i)) strings[i]
  last : (map.write memory).pointer (map.address + 4 * count) = 0
  between : ∀ a, map.write memory a ≠ memory a → map.address ≤ a ∧ a < useresp

theorem mapOf_small {c : Nat} (few : c ≤ strings.length) (reaches : start strings c ≤ used) (address : useresp < 2 ^ 32)
    (room : used + 4 * (c + 1) ≤ useresp) : ∀ value ∈ (mapOf text strings useresp used c).entries ++ [0], value < 2 ^ 32 := by
  intro value member
  rcases List.mem_append.mp member with entry | null
  · rw [mapOf] at entry
    obtain ⟨i, inside, rfl⟩ := List.mem_map.mp entry
    have := start_mono strings (List.mem_range.mp inside).le few
    omega
  · rw [List.mem_singleton.mp null]
    decide

theorem mapOf_entry {c : Nat} (few : c ≤ strings.length) (reaches : start strings c ≤ used) (address : useresp < 2 ^ 32)
    (room : used + 4 * (c + 1) ≤ useresp) (memory : Stack) (inside : i < c) :
    ((mapOf text strings useresp used c).write memory).pointer ((mapOf text strings useresp used c).address + 4 * i) =
      useresp - used + start strings i := by
  have pointers : ((mapOf text strings useresp used c).entries ++ [0]).length = c + 1 := by rw [mapOf]; simp
  rw [StringMap.write, Stack.storePointers_pointer _ _ (mapOf_small few reaches address room) (by omega)]
  simp only [mapOf]
  rw [List.getElem_append_left (by simp [inside]), List.getElem_map, List.getElem_range]

theorem mapOf_vector (holds : Holds text max 0 (encode strings)) {c : Nat} (few : c ≤ strings.length)
    (reaches : start strings c ≤ used) (most : used ≤ min max (encode strings).length) (address : useresp < 2 ^ 32)
    (room : used + 4 * (c + 1) ≤ useresp) (memory : Stack) :
    Vector strings useresp c (mapOf text strings useresp used c) memory := by
  generalize isMap : mapOf text strings useresp used c = map
  have table : map.address = useresp - used - 4 * (c + 1) := by rw [← isMap, mapOf]
  have bytes : map.truncStrings = useresp - used := by rw [← isMap, mapOf]
  have length : map.bytes.length = used := by rw [← isMap, mapOf, List.length_map, List.length_range]
  have pointers : (map.entries ++ [0]).length = c + 1 := by rw [← isMap, mapOf]; simp
  have small : ∀ value ∈ map.entries ++ [0], value < 2 ^ 32 := isMap ▸ mapOf_small few reaches address room
  -- the table ends where the strings begin
  have kept : ∀ j (inside : j < used), map.write memory (map.truncStrings + j) = text j := by
    intro j inside
    rw [StringMap.write, Stack.storePointers_outside (.inr (by omega)), Stack.store_inside (by omega)]
    simp only [← isMap, mapOf, List.getElem_map, List.getElem_range]
  constructor
  · intro i inside
    have within : i < strings.length := Nat.lt_of_lt_of_le inside few
    have entry : (map.write memory).pointer (map.address + 4 * i) = map.truncStrings + start strings i := by
      rw [← isMap]
      exact mapOf_entry few reaches address room memory inside
    have string := holds.string within
    have next := start_succ strings within
    have last := start_mono strings (i := i + 1) (n := c) (by omega) few
    refine ⟨within, ?_⟩
    rw [entry]
    have byte : ∀ j (below : j < (strings[i] ++ [0]).length),
        map.write memory (map.truncStrings + start strings i + j) = (strings[i] ++ [0])[j] := by
      intro j below
      rw [List.length_append, List.length_singleton] at below
      rw [Nat.add_assoc, kept _ (by omega)]
      have here := string j (by rw [List.length_append, List.length_singleton]; exact below) (by omega)
      rwa [Nat.zero_add] at here
    constructor
    · intro j below
      rw [byte j (by rw [List.length_append]; omega), List.getElem_append_left below]
    · rw [byte _ (by rw [List.length_append, List.length_singleton]; omega), List.getElem_append_right (Nat.le_refl _)]
      simp
  · rw [StringMap.write, Stack.storePointers_pointer _ _ small (by omega)]
    simp only [← isMap, mapOf]
    rw [List.getElem_append_right (by simp)]
    simp
  · intro a changed
    by_contra outside
    refine changed ?_
    rw [StringMap.write, Stack.storePointers_outside (by omega), Stack.store_outside (by omega)]

theorem complete_all (fits : (encode strings).length ≤ max) : complete max strings = strings.length := by
  have all : complete max strings = (List.range strings.length).length := by
    rw [complete, List.countP_eq_length]
    intro i member
    have inside := List.mem_range.mp member
    have next := start_succ strings inside
    have last := start_mono strings (i := i + 1) (n := strings.length) inside (Nat.le_refl _)
    rw [encode_length] at fits
    rw [nullAt, List.getD_eq_getElem?_getD, List.getElem?_eq_getElem inside, Option.getD_some, decide_eq_true_eq]
    omega
  rw [all, List.length_range]

/-- The process gets the strings whose zero comes before the last byte of the buffer, and no vector when there is none. -/
theorem argument_vector (strings : List (List UInt8)) (areStrings : AreStrings strings) (nonempty : strings ≠ []) (src : Text)
    (encodes : Encodes src strings) (dest : Text) (max : Nat) (two : 2 ≤ max) (useresp : Nat) (address : useresp < 2 ^ 32)
    (room : min max (encode strings).length + 4 * (complete max strings + 1) ≤ useresp) (memory : Stack) :
    ∃ parsed, parseNullSeparatedStrings useresp max (copyDoubleNull dest src max) = some parsed ∧
      parsed.count = complete max strings ∧
      (complete max strings = 0 → parsed.ptrMap = none ∧ parsed.useresp = useresp) ∧
      (complete max strings ≠ 0 → ∃ map, parsed.ptrMap = some map ∧ parsed.useresp = map.address ∧
        Vector strings useresp parsed.count map memory) ∧
      ((encode strings).length ≤ max → parsed.count = strings.length) := by
  have holds := encodes.copied areStrings dest max
  obtain ⟨used, reaches, most, done⟩ := parse_holds useresp areStrings nonempty holds two
  refine ⟨_, done, ?_⟩
  split_ifs with none
  · exact ⟨none.symm, fun _ => ⟨rfl, rfl⟩, fun some => absurd none some, fun fits => none ▸ complete_all fits⟩
  · exact ⟨rfl, fun other => absurd other none,
      fun _ => ⟨_, rfl, rfl, mapOf_vector holds complete_le reaches most address (by omega) memory⟩,
      complete_all⟩

theorem letter_encodes : Encodes letter [['a'.toUInt8]] := by
  intro j inside
  have three : j < 3 := inside
  obtain rfl | rfl | rfl : j = 0 ∨ j = 1 ∨ j = 2 := by omega
  all_goals rfl

-- `ls`, `-l` and `a`, one behind the other
def command : List (List UInt8) := [[0x6c, 0x73], [0x2d, 0x6c], [0x61]]

def commandText : Text := fun j => (encode command).getD j 0

theorem command_encodes : Encodes commandText command := fun j inside => by
  rw [commandText, List.getD_eq_getElem?_getD, List.getElem?_eq_getElem inside, Option.getD_some]

/-- The process gets all three strings, and from a buffer of 8 bytes the first two. -/
theorem argument_vector_command :
    (∃ parsed map, parseNullSeparatedStrings (userStackTop - 4) argsMaxLen (copyDoubleNull (fun _ => 0) commandText argsMaxLen) =
        some parsed ∧ parsed.count = 3 ∧ parsed.ptrMap = some map ∧ Vector command (userStackTop - 4) 3 map fun _ => 0) ∧
      ∃ parsed map, parseNullSeparatedStrings (userStackTop - 4) 8 (copyDoubleNull (fun _ => 0) commandText 8) = some parsed ∧
        parsed.count = 2 ∧ parsed.ptrMap = some map ∧ Vector command (userStackTop - 4) 2 map fun _ => 0 := by
  have areStrings : AreStrings command := by
    unfold AreStrings
    decide
  have vector (max : Nat) := argument_vector command areStrings (by decide) commandText command_encodes (fun _ => 0) max
  constructor
  · obtain ⟨parsed, done, counted, -, found, -⟩ := vector argsMaxLen (by decide) (userStackTop - 4) (by decide) (by decide) fun _ => 0
    obtain ⟨map, argv, -, found⟩ := found (by decide)
    have three : parsed.count = 3 := counted.trans (by decide)
    exact ⟨parsed, map, done, three, argv, three ▸ found⟩
  · obtain ⟨parsed, done, counted, -, found, -⟩ := vector 8 (by decide) (userStackTop - 4) (by decide) (by decide) fun _ => 0
    obtain ⟨map, argv, -, found⟩ := found (by decide)
    have two : parsed.count = 2 := counted.trans (by decide)
    exact ⟨parsed, map, done, two, argv, two ▸ found⟩

/-- A buffer of two bytes holds no whole string: there is no entry `argv[0]` to be `NULL`. -/
theorem no_argument_vector : Encodes letter [['a'.toUInt8]] ∧ ¬ ∃ parsed map,
    parseNullSeparatedStrings (userStackTop - 4) 2 (copyDoubleNull (fun _ => 0) letter 2) = some parsed ∧
      parsed.ptrMap = some map ∧ (map.write fun _ => 0).pointer (map.address + 4 * parsed.count) = 0 := by
  refine ⟨letter_encodes, ?_⟩
  rintro ⟨parsed, map, done, argv, -⟩
  have blank : parseNullSeparatedStrings (userStackTop - 4) 2 (copyDoubleNull (fun _ => 0) letter 2) =
      some ⟨userStackTop - 4, 0, none⟩ := by
    decide
  cases blank.symm.trans done
  cases argv

end Kerosene.Process
