import Kerosene.Libc.Memmove
import Mathlib.Order.Basic

/-!
# Strings in memory

A string is held at a pointer when its bytes, none of them null, are there with a null behind them. The string functions
of the library are those of lists.
-/

namespace Kerosene.Libc

-- `while(str[len] != '\0') len++`
def strlenLoop (memory : Memory) (str : Pointer) : (fuel : Nat) → (len : BitVec 32) → Option (BitVec 32)
  | 0, _ => none
  | fuel + 1, len => if memory (str + len) ≠ 0 then strlenLoop memory str fuel (len + 1) else some len

def strlen (memory : Memory) (fuel : Nat) (str : Pointer) : Option (BitVec 32) := strlenLoop memory str fuel 0

-- the difference of two unsigned characters
def difference (a b : UInt8) : Int := a.toNat - b.toNat

def strcmp (memory : Memory) : (fuel : Nat) → (str1 str2 : Pointer) → Option Int
  | 0, _, _ => none
  | fuel + 1, str1, str2 =>
      if memory str1 ≠ 0 ∧ memory str1 = memory str2 then strcmp memory fuel (str1 + 1) (str2 + 1)
      else some (difference (memory str1) (memory str2))

def strncmp (memory : Memory) : (str1 str2 : Pointer) → (n : Nat) → Int
  | _, _, 0 => 0
  | str1, str2, n + 1 =>
      if memory str1 ≠ memory str2 then difference (memory str1) (memory str2)
      else if memory str1 = 0 then 0
      else strncmp memory (str1 + 1) (str2 + 1) n

-- `while((*d++ = *src++))`
def strcpyLoop : (fuel : Nat) → (d src : Pointer) → Memory → Option Memory
  | 0, _, _, _ => none
  | fuel + 1, d, src, memory =>
      let byte := memory src
      let memory := Function.update memory d byte
      if byte ≠ 0 then strcpyLoop fuel (d + 1) (src + 1) memory else some memory

def strcpy (memory : Memory) (fuel : Nat) (dst src : Pointer) : Option (Pointer × Memory) := do
  let memory ← strcpyLoop fuel dst src memory
  return (dst, memory)

-- `while(*d) d++`
def seekEnd (memory : Memory) : (fuel : Nat) → (d : Pointer) → Option Pointer
  | 0, _ => none
  | fuel + 1, d => if memory d ≠ 0 then seekEnd memory fuel (d + 1) else some d

def strcat (memory : Memory) (fuel : Nat) (dst src : Pointer) : Option (Pointer × Memory) := do
  let d ← seekEnd memory fuel dst
  let memory ← strcpyLoop fuel d src memory
  return (dst, memory)

-- `'='`
def equalsSign : UInt8 := 61

-- a `char*`, its low byte first
def word (memory : Memory) (p : Pointer) : Pointer :=
  BitVec.ofNat 32 ((memory p).toNat + 256 * (memory (p + 1)).toNat + 65536 * (memory (p + 2)).toNat +
    16777216 * (memory (p + 3)).toNat)

-- `for(int i = 0; environment_pointer[i] != NULL; i++)`
def getenvLoop (memory : Memory) (environmentPointer name : Pointer) (nameLen : BitVec 32) :
    (fuel i : Nat) → Option (Option Pointer)
  | 0, _ => none
  | fuel + 1, i =>
      let entry := word memory (environmentPointer + BitVec.ofNat 32 (4 * i))
      if entry = 0 then some none
      else if strncmp memory entry name nameLen.toNat = 0 ∧ memory (entry + nameLen) = equalsSign then
        some (some (entry + (nameLen + 1)))
      else getenvLoop memory environmentPointer name nameLen fuel (i + 1)

-- a null pointer is 0
def getenv (memory : Memory) (fuel : Nat) (environmentPointer name : Pointer) : Option (Option Pointer) :=
  if environmentPointer = 0 ∨ name = 0 then some none
  else do
    let nameLen ← strlen memory fuel name
    getenvLoop memory environmentPointer name nameLen fuel 0

/-! ## Strings as lists -/

def Holds (memory : Memory) : (p : Pointer) → (s : List UInt8) → Prop
  | p, [] => memory p = 0
  | p, byte :: s => (memory p = byte ∧ byte ≠ 0) ∧ Holds memory (p + 1) s

/-- A table of pointers to strings, with a null pointer at its end. -/
def HoldsTable (memory : Memory) : (p : Pointer) → (strings : List (List UInt8)) → Prop
  | p, [] => word memory p = 0
  | p, s :: strings => (word memory p ≠ 0 ∧ Holds memory (word memory p) s) ∧ HoldsTable memory (p + 4) strings

/-- The value of the first entry that gives the name one. -/
def valueOf (name : List UInt8) (entries : List (List UInt8)) : Option (List UInt8) :=
  entries.findSome? fun entry => if (name ++ [equalsSign]).isPrefixOf entry then some (entry.drop (name.length + 1)) else none

variable {memory memory' : Memory} {p q d src dst : Pointer} {s t : List UInt8} {fuel n i j : Nat}

theorem add_one_add (p : Pointer) (i : Nat) : p + 1 + BitVec.ofNat 32 i = p + BitVec.ofNat 32 (i + 1) := by
  rw [Nat.add_comm i 1, BitVec.ofNat_add, BitVec.add_assoc]
  rfl

theorem add_zero_ofNat (p : Pointer) : p + BitVec.ofNat 32 0 = p := BitVec.add_zero p

theorem Holds.congr (held : Holds memory p s)
    (same : ∀ i ≤ s.length, memory' (p + BitVec.ofNat 32 i) = memory (p + BitVec.ofNat 32 i)) :
    Holds memory' p s := by
  have first := same 0 (Nat.zero_le _)
  rw [add_zero_ofNat] at first
  induction s generalizing p with
  | nil => exact first.trans held
  | cons byte s ih =>
      have rest (i : Nat) (inside : i ≤ s.length) :
          memory' (p + 1 + BitVec.ofNat 32 i) = memory (p + 1 + BitVec.ofNat 32 i) := by
        rw [add_one_add]
        exact same (i + 1) (Nat.succ_le_succ inside)
      refine ⟨⟨first.trans held.1.1, held.1.2⟩, ih held.2 rest ?_⟩
      have second := rest 0 (Nat.zero_le _)
      rwa [add_zero_ofNat] at second

theorem Holds.append (held : Holds memory p s)
    (same : ∀ i < s.length, memory' (p + BitVec.ofNat 32 i) = memory (p + BitVec.ofNat 32 i))
    (behind : Holds memory' (p + BitVec.ofNat 32 s.length) t) : Holds memory' p (s ++ t) := by
  induction s generalizing p with
  | nil => rwa [List.length_nil, add_zero_ofNat] at behind
  | cons byte s ih =>
      have first := same 0 (Nat.succ_pos _)
      rw [add_zero_ofNat] at first
      refine ⟨⟨first.trans held.1.1, held.1.2⟩, ih held.2 (fun i inside => ?_) ?_⟩
      · rw [add_one_add]
        exact same (i + 1) (Nat.succ_lt_succ inside)
      · rw [add_one_add]
        exact behind

theorem Holds.drop (held : Holds memory p (s ++ t)) : Holds memory (p + BitVec.ofNat 32 s.length) t := by
  induction s generalizing p with
  | nil => rwa [List.length_nil, add_zero_ofNat]
  | cons byte s ih =>
      rw [List.length_cons, ← add_one_add]
      exact ih held.2

theorem Holds.small (held : Holds memory p s) : s.length < 2 ^ 32 := by
  by_contra long
  have null : Holds memory (p + BitVec.ofNat 32 s.length) [] := by
    rw [← List.append_nil s] at held
    exact held.drop
  have less : s.length % 2 ^ 32 < s.length := lt_of_lt_of_le (Nat.mod_lt _ (by decide)) (not_lt.mp long)
  rw [← List.take_append_drop (s.length % 2 ^ 32) s, List.drop_eq_getElem_cons less] at held
  have here := held.drop.1
  have same : BitVec.ofNat 32 (s.length % 2 ^ 32) = BitVec.ofNat 32 s.length := BitVec.eq_of_toNat_eq (by
    rw [BitVec.toNat_ofNat, BitVec.toNat_ofNat, Nat.mod_mod])
  rw [List.length_take, Nat.min_eq_left less.le, same, show memory (p + BitVec.ofNat 32 s.length) = 0 from null] at here
  exact here.2 here.1.symm

/-! ## Reading -/

theorem strlenLoop_eq {len : BitVec 32} (held : Holds memory (p + len) s) (enough : s.length < fuel) :
    strlenLoop memory p fuel len = some (len + BitVec.ofNat 32 s.length) := by
  induction s generalizing fuel len with
  | nil =>
      obtain ⟨fuel, rfl⟩ := Nat.exists_eq_succ_of_ne_zero (Nat.ne_zero_of_lt enough)
      have null : memory (p + len) = 0 := held
      rw [strlenLoop, if_neg (not_not.mpr null), List.length_nil, add_zero_ofNat]
  | cons byte s ih =>
      obtain ⟨fuel, rfl⟩ := Nat.exists_eq_succ_of_ne_zero (Nat.ne_zero_of_lt enough)
      obtain ⟨⟨here, nonzero⟩, rest⟩ := held
      rw [BitVec.add_assoc] at rest
      rw [strlenLoop, if_pos (here ▸ nonzero), ih rest (Nat.lt_of_succ_lt_succ enough), List.length_cons, add_one_add]

theorem strlen_eq (held : Holds memory p s) (enough : s.length < fuel) :
    strlen memory fuel p = some (BitVec.ofNat 32 s.length) := by
  have start : Holds memory (p + 0) s := by
    have zero : p + 0 = p := BitVec.add_zero p
    rwa [zero]
  rw [strlen, strlenLoop_eq start enough]
  exact congrArg some (BitVec.zero_add _)

theorem difference_eq_zero {a b : UInt8} : difference a b = 0 ↔ a = b := by
  rw [difference, sub_eq_zero, Nat.cast_inj, UInt8.toNat_inj]

theorem difference_neg {a b : UInt8} : difference a b < 0 ↔ a < b := by
  rw [difference, sub_neg, Int.ofNat_lt, UInt8.lt_iff_toNat_lt]

/-- `r` says how two strings are ordered. -/
structure Compares (r : Int) (s t : List UInt8) : Prop where
  equal : r = 0 ↔ s = t
  less : r < 0 ↔ s < t

theorem compares_nil : Compares 0 ([] : List UInt8) [] :=
  ⟨iff_of_true rfl rfl, iff_of_false (lt_irrefl 0) (List.not_lt_nil _)⟩

theorem Compares.cons {r : Int} (compares : Compares r s t) (byte : UInt8) : Compares r (byte :: s) (byte :: t) := by
  refine ⟨compares.equal.trans ?_, compares.less.trans ?_⟩
  · exact ⟨congrArg _, List.tail_eq_of_cons_eq⟩
  · rw [List.cons_lt_cons_iff]
    exact ⟨fun less => Or.inr ⟨rfl, less⟩, fun either => either.elim (fun less => absurd less (UInt8.lt_irrefl byte)) And.right⟩

theorem compares_first {a b : UInt8} (other : a ≠ b) : Compares (difference a b) (a :: s) (b :: t) := by
  refine ⟨iff_of_false (mt difference_eq_zero.mp other) fun same => other (List.head_eq_of_cons_eq same), ?_⟩
  rw [difference_neg, List.cons_lt_cons_iff]
  exact ⟨Or.inl, fun either => either.elim id fun same => absurd same.1 other⟩

theorem compares_short {b : UInt8} (nonzero : b ≠ 0) : Compares (difference 0 b) [] (b :: t) := by
  refine ⟨iff_of_false (mt difference_eq_zero.mp nonzero.symm) (List.cons_ne_nil _ _).symm, ?_⟩
  exact iff_of_true (difference_neg.mpr (UInt8.pos_iff_ne_zero.mpr nonzero)) (List.nil_lt_cons b t)

theorem compares_long {a : UInt8} (nonzero : a ≠ 0) : Compares (difference a 0) (a :: s) [] := by
  refine ⟨iff_of_false (mt difference_eq_zero.mp nonzero) (List.cons_ne_nil _ _), ?_⟩
  exact iff_of_false (mt difference_neg.mp (UInt8.not_lt_zero)) (List.not_lt_nil _)

theorem strcmp_compares (first : Holds memory p s) (second : Holds memory q t) (enough : s.length < fuel) :
    ∃ r, strcmp memory fuel p q = some r ∧ Compares r s t := by
  induction s generalizing p q t fuel with
  | nil =>
      obtain ⟨fuel, rfl⟩ := Nat.exists_eq_succ_of_ne_zero (Nat.ne_zero_of_lt enough)
      have null : memory p = 0 := first
      rw [strcmp, if_neg (fun both => both.1 null), null]
      cases t with
      | nil =>
          have null' : memory q = 0 := second
          rw [null']
          exact ⟨_, rfl, compares_nil⟩
      | cons b t =>
          rw [second.1.1]
          exact ⟨_, rfl, compares_short second.1.2⟩
  | cons a s ih =>
      obtain ⟨fuel, rfl⟩ := Nat.exists_eq_succ_of_ne_zero (Nat.ne_zero_of_lt enough)
      obtain ⟨⟨here, nonzero⟩, rest⟩ := first
      rw [strcmp, here]
      cases t with
      | nil =>
          have null : memory q = 0 := second
          rw [null, if_neg fun both => nonzero both.2]
          exact ⟨_, rfl, compares_long nonzero⟩
      | cons b t =>
          rw [second.1.1]
          by_cases same : a = b
          · obtain ⟨r, ran, compares⟩ := ih rest second.2 (Nat.lt_of_succ_lt_succ enough)
            rw [if_pos ⟨nonzero, same⟩, ← same]
            exact ⟨r, ran, compares.cons a⟩
          · rw [if_neg fun both => same both.2]
            exact ⟨_, rfl, compares_first same⟩

theorem strncmp_compares (first : Holds memory p s) (second : Holds memory q t) (n : Nat) :
    Compares (strncmp memory p q n) (s.take n) (t.take n) := by
  induction n generalizing p q s t with
  | zero => exact compares_nil
  | succ n ih =>
      rw [strncmp]
      cases s with
      | nil =>
          have null : memory p = 0 := first
          rw [null]
          cases t with
          | nil =>
              have null' : memory q = 0 := second
              rw [null', if_neg (not_not.mpr rfl), if_pos rfl]
              exact compares_nil
          | cons b t =>
              rw [second.1.1, if_pos second.1.2.symm]
              exact compares_short second.1.2
      | cons a s =>
          obtain ⟨⟨here, nonzero⟩, rest⟩ := first
          rw [here]
          cases t with
          | nil =>
              have null : memory q = 0 := second
              rw [null, if_pos nonzero]
              exact compares_long nonzero
          | cons b t =>
              rw [second.1.1]
              by_cases same : a = b
              · rw [if_neg (not_not.mpr same), if_neg nonzero, ← same]
                exact (ih rest second.2).cons a
              · rw [if_pos same]
                exact compares_first same

/-! ## Copying -/

-- the places of a string and of its null
def Apart (d src : Pointer) (n : Nat) : Prop := ∀ i ≤ n, ∀ j ≤ n, d + BitVec.ofNat 32 i ≠ src + BitVec.ofNat 32 j

theorem add_ofNat_ne_self (p : Pointer) (positive : 0 < n) (small : n < 2 ^ 32) : p + BitVec.ofNat 32 n ≠ p := by
  intro same
  have value := congrArg BitVec.toNat same
  have bound := p.isLt
  rw [BitVec.toNat_add, BitVec.toNat_ofNat] at value
  omega

theorem strcpyLoop_copies (held : Holds memory src s) (apart : Apart d src s.length) (small : s.length < 2 ^ 32)
    (enough : s.length < fuel) : ∃ memory', strcpyLoop fuel d src memory = some memory' ∧ Holds memory' d s ∧
      ∀ a, (∀ i ≤ s.length, a ≠ d + BitVec.ofNat 32 i) → memory' a = memory a := by
  induction s generalizing memory d src fuel with
  | nil =>
      obtain ⟨fuel, rfl⟩ := Nat.exists_eq_succ_of_ne_zero (Nat.ne_zero_of_lt enough)
      have null : memory src = 0 := held
      rw [strcpyLoop, null]
      refine ⟨_, if_neg (not_not.mpr rfl), Function.update_self .., fun a outside => Function.update_of_ne ?_ _ _⟩
      have away := outside 0 le_rfl
      rwa [add_zero_ofNat] at away
  | cons byte s ih =>
      obtain ⟨fuel, rfl⟩ := Nat.exists_eq_succ_of_ne_zero (Nat.ne_zero_of_lt enough)
      obtain ⟨⟨here, nonzero⟩, rest⟩ := held
      rw [strcpyLoop, here, if_pos nonzero]
      have kept : Holds (Function.update memory d byte) (src + 1) s := by
        refine rest.congr fun i inside => Function.update_of_ne ?_ _ _
        have other := apart 0 (Nat.zero_le _) (i + 1) (Nat.succ_le_succ inside)
        rw [add_zero_ofNat] at other
        rw [add_one_add]
        exact other.symm
      have apart' : Apart (d + 1) (src + 1) s.length := by
        intro i left j right
        rw [add_one_add, add_one_add]
        exact apart (i + 1) (Nat.succ_le_succ left) (j + 1) (Nat.succ_le_succ right)
      obtain ⟨memory', ran, copied, others⟩ := ih kept apart' (Nat.lt_of_succ_lt small) (Nat.lt_of_succ_lt_succ enough)
      have written : memory' d = byte := by
        refine (others d fun i inside => ?_).trans (Function.update_self ..)
        rw [add_one_add]
        exact (add_ofNat_ne_self d (Nat.succ_pos i) (lt_of_le_of_lt (Nat.succ_le_succ inside) small)).symm
      refine ⟨memory', ran, ⟨⟨written, nonzero⟩, copied⟩, fun a outside => ?_⟩
      have away := outside 0 (Nat.zero_le _)
      rw [add_zero_ofNat] at away
      refine (others a fun i inside => ?_).trans (Function.update_of_ne away _ _)
      rw [add_one_add]
      exact outside (i + 1) (Nat.succ_le_succ inside)

theorem seekEnd_eq (held : Holds memory p s) (enough : s.length < fuel) :
    seekEnd memory fuel p = some (p + BitVec.ofNat 32 s.length) := by
  induction s generalizing p fuel with
  | nil =>
      obtain ⟨fuel, rfl⟩ := Nat.exists_eq_succ_of_ne_zero (Nat.ne_zero_of_lt enough)
      have null : memory p = 0 := held
      rw [seekEnd, if_neg (not_not.mpr null), List.length_nil, add_zero_ofNat]
  | cons byte s ih =>
      obtain ⟨fuel, rfl⟩ := Nat.exists_eq_succ_of_ne_zero (Nat.ne_zero_of_lt enough)
      rw [seekEnd, if_pos (held.1.1 ▸ held.1.2), ih held.2 (Nat.lt_of_succ_lt_succ enough), List.length_cons, add_one_add]

theorem strcpy_copies (held : Holds memory src s) (apart : Apart dst src s.length) (small : s.length < 2 ^ 32)
    (enough : s.length < fuel) : ∃ memory', strcpy memory fuel dst src = some (dst, memory') ∧ Holds memory' dst s ∧
      ∀ a, (∀ i ≤ s.length, a ≠ dst + BitVec.ofNat 32 i) → memory' a = memory a := by
  obtain ⟨memory', ran, copied, others⟩ := strcpyLoop_copies held apart small enough
  exact ⟨memory', by rw [strcpy, ran]; rfl, copied, others⟩

theorem strcat_appends (held : Holds memory dst t) (text : Holds memory src s)
    (apart : Apart (dst + BitVec.ofNat 32 t.length) src s.length) (small : t.length + s.length < 2 ^ 32)
    (enough : t.length + s.length < fuel) : ∃ memory', strcat memory fuel dst src = some (dst, memory') ∧
      Holds memory' dst (t ++ s) ∧ ∀ a, (∀ i ≤ s.length, a ≠ dst + BitVec.ofNat 32 (t.length + i)) → memory' a = memory a := by
  obtain ⟨memory', ran, copied, others⟩ := strcpyLoop_copies text apart (by omega) (show s.length < fuel by omega)
  have place (i : Nat) : dst + BitVec.ofNat 32 t.length + BitVec.ofNat 32 i = dst + BitVec.ofNat 32 (t.length + i) := by
    rw [BitVec.ofNat_add, BitVec.add_assoc]
  have ended := seekEnd_eq held (show t.length < fuel by omega)
  refine ⟨memory', by rw [strcat, ended, Option.bind_eq_bind, Option.bind_some, ran]; rfl, ?_, fun a outside => ?_⟩
  · refine held.append (fun i inside => others _ fun j behind => ?_) copied
    -- what was there lies before the null that is written upon
    have gap : t.length + j = i + (t.length + j - i) := by omega
    rw [place, gap, BitVec.ofNat_add, ← BitVec.add_assoc]
    exact (add_ofNat_ne_self _ (by omega) (by omega)).symm
  · refine others a fun i inside => ?_
    rw [place]
    exact outside i inside

/-- The string functions are those of lists. -/
theorem strings_exact (first : Holds memory p s) (second : Holds memory q t) (small : s.length + t.length < 2 ^ 32)
    (enough : s.length + t.length < fuel) :
    strlen memory fuel p = some (BitVec.ofNat 32 s.length) ∧
    (∃ r, strcmp memory fuel p q = some r ∧ (r = 0 ↔ s = t) ∧ (r < 0 ↔ s < t)) ∧
    (∀ n, (strncmp memory p q n = 0 ↔ s.take n = t.take n) ∧ (strncmp memory p q n < 0 ↔ s.take n < t.take n)) ∧
    (∀ dst, Apart dst q t.length → ∃ memory', strcpy memory fuel dst q = some (dst, memory') ∧ Holds memory' dst t ∧
      ∀ a, (∀ i ≤ t.length, a ≠ dst + BitVec.ofNat 32 i) → memory' a = memory a) ∧
    (Apart (p + BitVec.ofNat 32 s.length) q t.length → ∃ memory', strcat memory fuel p q = some (p, memory') ∧
      Holds memory' p (s ++ t) ∧ ∀ a, (∀ i ≤ t.length, a ≠ p + BitVec.ofNat 32 (s.length + i)) → memory' a = memory a) := by
  refine ⟨strlen_eq first (by omega), ?_, fun n => ?_, fun dst apart => ?_, fun apart => ?_⟩
  · obtain ⟨r, ran, compares⟩ := strcmp_compares first second (show s.length < fuel by omega)
    exact ⟨r, ran, compares.equal, compares.less⟩
  · have compares := strncmp_compares first second n
    exact ⟨compares.equal, compares.less⟩
  · exact strcpy_copies second apart (by omega) (by omega)
  · exact strcat_appends first second apart (by omega) (by omega)

-- two strings of one letter each
def twoLetters (p : Pointer) : UInt8 := if p = 1 then 65 else if p = 8 then 66 else 0

theorem strings_exact_letters :
    strlen twoLetters 3 1 = some (BitVec.ofNat 32 1) ∧
    (∃ r, strcmp twoLetters 3 1 8 = some r ∧ (r = 0 ↔ ([65] : List UInt8) = [66]) ∧ (r < 0 ↔ ([65] : List UInt8) < [66])) ∧
    (∀ n, (strncmp twoLetters 1 8 n = 0 ↔ ([65] : List UInt8).take n = [66].take n) ∧
      (strncmp twoLetters 1 8 n < 0 ↔ ([65] : List UInt8).take n < [66].take n)) ∧
    (∀ dst, Apart dst 8 1 → ∃ memory', strcpy twoLetters 3 dst 8 = some (dst, memory') ∧ Holds memory' dst [66] ∧
      ∀ a, (∀ i ≤ 1, a ≠ dst + BitVec.ofNat 32 i) → memory' a = twoLetters a) ∧
    (Apart (1 + BitVec.ofNat 32 1) 8 1 → ∃ memory', strcat twoLetters 3 1 8 = some (1, memory') ∧
      Holds memory' 1 ([65] ++ [66]) ∧ ∀ a, (∀ i ≤ 1, a ≠ 1 + BitVec.ofNat 32 (1 + i)) → memory' a = twoLetters a) := by
  have first : Holds twoLetters 1 [65] := by
    refine ⟨⟨by decide, by decide⟩, ?_⟩
    rw [Holds]
    decide
  have second : Holds twoLetters 8 [66] := by
    refine ⟨⟨by decide, by decide⟩, ?_⟩
    rw [Holds]
    decide
  exact strings_exact first second (by decide) (by decide)

/-! ## The environment -/

theorem take_eq_iff (name entry : List UInt8) : entry.take name.length = name ↔ ∃ rest, entry = name ++ rest := by
  constructor
  · intro same
    refine ⟨entry.drop name.length, ?_⟩
    nth_rewrite 1 [← List.take_append_drop name.length entry, same]
    rfl
  · rintro ⟨rest, rfl⟩
    exact List.take_left

theorem entry_taken {name entry : List UInt8} {namePtr : Pointer} (held : Holds memory namePtr name)
    (entryHeld : Holds memory p entry) (small : name.length < 2 ^ 32) :
    (strncmp memory p namePtr (BitVec.ofNat 32 name.length).toNat = 0 ∧ memory (p + BitVec.ofNat 32 name.length) = equalsSign) ↔
      (name ++ [equalsSign]).isPrefixOf entry = true := by
  rw [BitVec.toNat_ofNat, Nat.mod_eq_of_lt small, (strncmp_compares entryHeld held name.length).equal, List.take_length,
    take_eq_iff, List.isPrefixOf_iff_prefix]
  constructor
  · rintro ⟨⟨rest, rfl⟩, sign⟩
    have behind := entryHeld.drop
    cases rest with
    | nil =>
        have null : memory (p + BitVec.ofNat 32 name.length) = 0 := behind
        rw [null] at sign
        exact absurd sign (by decide)
    | cons byte value =>
        rw [behind.1.1] at sign
        exact ⟨value, by rw [sign, List.append_assoc, List.singleton_append]⟩
  · rintro ⟨value, rfl⟩
    rw [List.append_assoc, List.singleton_append] at entryHeld ⊢
    exact ⟨⟨_, rfl⟩, entryHeld.drop.1.1⟩

theorem getenvLoop_finds {name : List UInt8} {environment namePtr : Pointer} (held : Holds memory namePtr name)
    (small : name.length < 2 ^ 32) {entries : List (List UInt8)}
    (table : HoldsTable memory (environment + BitVec.ofNat 32 (4 * i)) entries) (enough : entries.length < fuel) :
    ∃ found, getenvLoop memory environment namePtr (BitVec.ofNat 32 name.length) fuel i = some found ∧
      Option.Rel (Holds memory) found (valueOf name entries) := by
  induction entries generalizing fuel i with
  | nil =>
      obtain ⟨fuel, rfl⟩ := Nat.exists_eq_succ_of_ne_zero (Nat.ne_zero_of_lt enough)
      have null : word memory (environment + BitVec.ofNat 32 (4 * i)) = 0 := table
      rw [getenvLoop, null]
      exact ⟨none, rfl, Option.Rel.none⟩
  | cons entry rest ih =>
      obtain ⟨fuel, rfl⟩ := Nat.exists_eq_succ_of_ne_zero (Nat.ne_zero_of_lt enough)
      obtain ⟨⟨nonnull, here⟩, others⟩ := table
      have taken := entry_taken held here small
      rw [getenvLoop, if_neg nonnull, valueOf, List.findSome?_cons]
      by_cases gives : (name ++ [equalsSign]).isPrefixOf entry = true
      · rw [if_pos (taken.mpr gives), if_pos gives]
        obtain ⟨value, whole⟩ := List.isPrefixOf_iff_prefix.mp gives
        rw [← whole] at here ⊢
        have behind := here.drop
        have length : (name ++ [equalsSign]).length = name.length + 1 := List.length_append
        rw [← length, List.drop_left]
        rw [length, BitVec.ofNat_add] at behind
        exact ⟨_, rfl, Option.Rel.some behind⟩
      · rw [if_neg (mt taken.mp gives), if_neg gives]
        refine ih ?_ (Nat.lt_of_succ_lt_succ enough)
        rw [BitVec.add_assoc] at others
        rw [Nat.mul_succ, BitVec.ofNat_add]
        exact others

theorem getenv_finds {name : List UInt8} {environment namePtr : Pointer} (present : environment ≠ 0) (named : namePtr ≠ 0)
    (held : Holds memory namePtr name) {entries : List (List UInt8)} (table : HoldsTable memory environment entries)
    (enough : name.length + entries.length < fuel) :
    ∃ found, getenv memory fuel environment namePtr = some found ∧ Option.Rel (Holds memory) found (valueOf name entries) := by
  rw [getenv, if_neg (not_or.mpr ⟨present, named⟩), strlen_eq held (by omega)]
  refine getenvLoop_finds held held.small ?_ (by omega)
  rw [Nat.mul_zero, add_zero_ofNat]
  exact table

end Kerosene.Libc
