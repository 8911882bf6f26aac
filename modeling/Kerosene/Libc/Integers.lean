import Kerosene.Libc.ScanCalls
import Mathlib.Data.Nat.Digits.Lemmas

/-!
# `itoa`, `intlen` and `atoi`

An `int` is a word of 32 bits. A buffer is the list of its bytes before the terminator.
-/

namespace Kerosene.Libc
open Outcome

def digitChar (i : Nat) : UInt8 :=
  if i < 10 then UInt8.ofNat (i + '0'.toNat) else UInt8.ofNat (i + 'a'.toNat - 10)

/-- `while(n)`, the digits from the lowest on. -/
def digitLoop (radix : Nat) : (fuel n : Nat) → Option (List UInt8)
  | 0, _ => none
  | fuel + 1, n => if n = 0 then some [] else (digitLoop radix fuel (n / radix)).map (digitChar (n % radix) :: ·)

-- one turn of `strrev`
def swap (str s : List UInt8) (i : Nat) : List UInt8 :=
  (s.set i (s.getD (str.length - i - 1) 0)).set (str.length - i - 1) (s.getD i 0)

def strrev (str : List UInt8) : List UInt8 := (List.range (str.length / 2)).foldl (swap str) str

def hasSign (num : BitVec 32) (radix : Nat) : Bool := radix = 10 && num.slt 0

def itoa (num : BitVec 32) (radix : Nat) : Option (List UInt8) :=
  if num = 0 then some ['0'.toUInt8]
  else do
    let digits ← digitLoop radix 33 (if hasSign num radix then (-num).toNat else num.toNat)
    return strrev (if hasSign num radix then digits ++ ['-'.toUInt8] else digits)

def lengthLoop (radix : Nat) : (fuel n len : Nat) → Option Nat
  | 0, _, _ => none
  | fuel + 1, n, len => if n > 0 then lengthLoop radix fuel (n / radix) (len + 1) else some len

def intlen (num : BitVec 32) (radix : Nat) : Option Nat :=
  if num = 0 then some 1
  else if hasSign num radix then lengthLoop radix 33 (-num).toNat 1
  else lengthLoop radix 33 num.toNat 0

-- any character counts as a digit here
def atoiLoop (p : List UInt8) : BitVec 32 :=
  p.foldl (fun ret c => ret * 10#32 + BitVec.ofInt 32 (charValue c) - BitVec.ofNat 32 '0'.toNat) 0#32

def atoi (buff : List UInt8) : BitVec 32 :=
  match buff with
  | c :: p => if c = '-'.toUInt8 then atoiLoop p * -1 else atoiLoop buff
  | [] => atoiLoop []

/-! ## Digits -/

variable {radix n k : Nat} {num : BitVec 32}

theorem digitLoop_eq (base : 1 < radix) (small : n < 2 ^ k) :
    digitLoop radix (k + 1) n = some ((Nat.digits radix n).map digitChar) := by
  induction k generalizing n with
  | zero =>
      obtain rfl : n = 0 := by omega
      rw [digitLoop, if_pos rfl, Nat.digits_zero, List.map_nil]
  | succ k ih =>
      rw [digitLoop]
      split_ifs with zero
      · rw [zero, Nat.digits_zero, List.map_nil]
      · have fewer : n / radix < 2 ^ k := by
          rw [Nat.div_lt_iff_lt_mul (by omega)]
          calc n < 2 ^ k * 2 := by rwa [← pow_succ]
            _ ≤ 2 ^ k * radix := Nat.mul_le_mul_left _ base
        rw [ih fewer, Nat.digits_def' base (Nat.pos_of_ne_zero zero)]
        rfl

theorem lengthLoop_eq (base : 1 < radix) (small : n < 2 ^ k) (len : Nat) :
    lengthLoop radix (k + 1) n len = some (len + (Nat.digits radix n).length) := by
  induction k generalizing n len with
  | zero =>
      obtain rfl : n = 0 := by omega
      rw [lengthLoop, if_neg (by omega), Nat.digits_zero, List.length_nil, Nat.add_zero]
  | succ k ih =>
      rw [lengthLoop]
      split_ifs with positive
      · have fewer : n / radix < 2 ^ k := by
          rw [Nat.div_lt_iff_lt_mul (by omega)]
          calc n < 2 ^ k * 2 := by rwa [← pow_succ]
            _ ≤ 2 ^ k * radix := Nat.mul_le_mul_left _ base
        rw [ih fewer, Nat.digits_def' base positive, List.length_cons, Nat.add_right_comm, Nat.add_assoc]
      · obtain rfl : n = 0 := by omega
        rw [Nat.digits_zero, List.length_nil, Nat.add_zero]

/-! ## `strrev` -/

theorem length_swaps (str : List UInt8) (k : Nat) : ((List.range k).foldl (swap str) str).length = str.length := by
  induction k with
  | zero => rfl
  | succ k ih => rw [List.range_succ, List.foldl_append, List.foldl_cons, List.foldl_nil, swap, List.length_set, List.length_set, ih]

theorem getElem?_swaps (str : List UInt8) (half : k ≤ str.length / 2) (i : Nat) :
    ((List.range k).foldl (swap str) str)[i]? = if i < k ∨ str.length - k ≤ i then str.reverse[i]? else str[i]? := by
  induction k generalizing i with
  | zero =>
      rw [List.range_zero, List.foldl_nil]
      split_ifs with outside
      · rw [List.getElem?_eq_none (by omega), List.getElem?_eq_none (by rw [List.length_reverse]; omega)]
      · rfl
  | succ k ih =>
      have length := length_swaps str k
      have before := ih (by omega)
      rw [List.range_succ, List.foldl_append, List.foldl_cons, List.foldl_nil]
      generalize (List.range k).foldl (swap str) str = s at *
      -- the two bytes that this turn exchanges are still in their places
      have inner := before k
      have outer := before (str.length - k - 1)
      rw [if_neg (by omega)] at inner outer
      rw [swap, List.getElem?_set, List.getElem?_set, List.length_set, length, List.getD_eq_getElem?_getD,
        List.getD_eq_getElem?_getD, inner, outer]
      by_cases last : str.length - k - 1 = i
      · subst last
        rw [if_pos rfl, if_pos (by omega), if_pos (by omega), List.getElem?_reverse (by omega),
          show str.length - 1 - (str.length - k - 1) = k by omega, List.getElem?_eq_getElem (by omega)]
        rfl
      · rw [if_neg last]
        by_cases first : k = i
        · subst first
          rw [if_pos rfl, if_pos (by omega), if_pos (by omega), List.getElem?_reverse (by omega),
            show str.length - 1 - k = str.length - k - 1 by omega, List.getElem?_eq_getElem (by omega)]
          rfl
        · rw [if_neg first, before i]
          by_cases outside : i < k ∨ str.length - k ≤ i
          · rw [if_pos outside, if_pos (by omega)]
          · rw [if_neg outside, if_neg (by omega)]

theorem strrev_eq (str : List UInt8) : strrev str = str.reverse := by
  refine List.ext_getElem? fun i => ?_
  rw [strrev, getElem?_swaps str le_rfl]
  split_ifs with swapped
  · rfl
  · have middle : str.length - 1 - i = i := by omega
    rw [List.getElem?_reverse (by omega), middle]

/-! ## The text -/

/-- The number that is printed, without its sign. -/
def magnitude (num : BitVec 32) (radix : Nat) : Nat := if hasSign num radix then (-num).toNat else num.toNat

def signOf (num : BitVec 32) (radix : Nat) : List UInt8 := if hasSign num radix then ['-'.toUInt8] else []

/-- The digits of `n`, the lowest first; zero has one. -/
structure Printed (radix : Nat) (l : List Nat) (n : Nat) : Prop where
  nonempty : l ≠ []
  digits : ∀ i ∈ l, i < radix
  value : Nat.ofDigits radix l = n

def digitText (l : List Nat) : List UInt8 := l.reverse.map digitChar

theorem magnitude_lt (num : BitVec 32) (radix : Nat) : magnitude num radix < 2 ^ 32 := by
  rw [magnitude]
  split_ifs
  · exact (-num).isLt
  · exact num.isLt

theorem magnitude_pos (nonzero : num ≠ 0) : magnitude num radix ≠ 0 := by
  rw [magnitude]
  split_ifs
  · intro zero
    exact nonzero (BitVec.neg_eq_zero_iff.mp (BitVec.eq_of_toNat_eq zero))
  · intro zero
    exact nonzero (BitVec.eq_of_toNat_eq zero)

theorem itoa_spec (base : 1 < radix) (num : BitVec 32) : ∃ l, Printed radix l (magnitude num radix) ∧
    itoa num radix = some (signOf num radix ++ digitText l) ∧ intlen num radix = some (signOf num radix ++ digitText l).length := by
  by_cases zero : num = 0
  · subst zero
    have sign : ¬ hasSign (0 : BitVec 32) radix = true := by simp [hasSign]
    refine ⟨[0], ⟨List.cons_ne_nil 0 [], fun i member => ?_, ?_⟩, ?_, ?_⟩
    · rw [List.mem_singleton.mp member]
      omega
    · rw [magnitude, if_neg sign]
      rfl
    · rw [itoa, if_pos rfl, signOf, if_neg sign]
      rfl
    · rw [intlen, if_pos rfl, signOf, if_neg sign]
      rfl
  · have small := magnitude_lt num radix
    have digits := digitLoop_eq base small
    have length := lengthLoop_eq base small
    refine ⟨Nat.digits radix (magnitude num radix), ⟨Nat.digits_ne_nil_iff_ne_zero.mpr (magnitude_pos zero),
      fun i member => Nat.digits_lt_base base member, Nat.ofDigits_digits radix _⟩, ?_, ?_⟩
    · rw [magnitude] at digits ⊢
      rw [itoa, if_neg zero, digits, Option.bind_eq_bind, Option.bind_some, strrev_eq, signOf, digitText, List.map_reverse]
      split_ifs
      · rw [List.reverse_append]
        rfl
      · rfl
    · rw [List.length_append, digitText, List.length_map, List.length_reverse, intlen, if_neg zero]
      rw [magnitude, signOf] at *
      split_ifs with sign
      · rw [if_pos sign] at length
        rw [length, List.length_singleton]
      · rw [if_neg sign] at length
        rw [length, List.length_nil]

/-! ## Reading digits -/

-- Horner's rule, with any way to read a digit
theorem foldl_digits {value : UInt8 → BitVec 32} {l : List Nat}
    (reads : ∀ i ∈ l, value (digitChar i) = BitVec.ofNat 32 i) :
    (digitText l).foldl (fun num c => num * BitVec.ofNat 32 radix + value c) 0#32 = BitVec.ofNat 32 (Nat.ofDigits radix l) := by
  induction l with
  | nil => rfl
  | cons i l ih =>
      rw [digitText] at ih ⊢
      rw [List.reverse_cons, List.map_append, List.foldl_append, ih fun j member => reads j (List.mem_cons_of_mem i member),
        List.map_singleton, List.foldl_cons, List.foldl_nil, reads i List.mem_cons_self, Nat.ofDigits_cons]
      apply BitVec.eq_of_toNat_eq
      simp only [BitVec.toNat_add, BitVec.toNat_mul, BitVec.toNat_ofNat]
      rw [Nat.mod_add_mod, Nat.add_mod_mod, Nat.add_mod, Nat.mod_mul_mod, Nat.mul_mod_mod, ← Nat.add_mod, Nat.mul_comm,
        Nat.add_comm]

section
variable {l : List Nat}

theorem digitText_forall {p : UInt8 → Prop} (digits : ∀ i ∈ l, i < radix) (all : ∀ i < radix, p (digitChar i)) :
    ∀ c ∈ digitText l, p c := by
  intro c member
  obtain ⟨i, digit, rfl⟩ := List.mem_map.mp member
  exact all i (digits i (List.mem_reverse.mp digit))

theorem decimal_digitText (printed : Printed 10 l n) : decimal (digitText l) = BitVec.ofNat 32 n := by
  have reads : ∀ i < 10, BitVec.ofNat 32 ((digitChar i).toNat - '0'.toNat) = BitVec.ofNat 32 i := by decide
  rw [← printed.value]
  exact foldl_digits fun i member => reads i (printed.digits i member)

theorem hexadecimal_digitText (printed : Printed 16 l n) : hexadecimal (digitText l) = BitVec.ofNat 32 n := by
  have reads : ∀ i < 16, BitVec.ofNat 32 ((hexDigit (digitChar i)).getD 0) = BitVec.ofNat 32 i := by decide
  rw [← printed.value]
  exact foldl_digits fun i member => reads i (printed.digits i member)

theorem atoiLoop_digitText (printed : Printed 10 l n) : atoiLoop (digitText l) = BitVec.ofNat 32 n := by
  have reads : ∀ i < 10, BitVec.ofInt 32 (charValue (digitChar i)) - BitVec.ofNat 32 '0'.toNat = BitVec.ofNat 32 i := by decide
  have step : (fun (ret : BitVec 32) c => ret * 10#32 + BitVec.ofInt 32 (charValue c) - BitVec.ofNat 32 '0'.toNat) =
      fun ret c => ret * BitVec.ofNat 32 10 + (BitVec.ofInt 32 (charValue c) - BitVec.ofNat 32 '0'.toNat) := by
    funext ret c
    rw [BitVec.sub_eq_add_neg, BitVec.sub_eq_add_neg, BitVec.add_assoc]
  rw [← printed.value, atoiLoop, step]
  exact foldl_digits fun i member => reads i (printed.digits i member)

theorem signed_magnitude (num : BitVec 32) :
    (if hasSign num 10 then -BitVec.ofNat 32 (magnitude num 10) else BitVec.ofNat 32 (magnitude num 10)) = num := by
  rw [magnitude]
  split_ifs
  · rw [BitVec.ofNat_toNat, BitVec.setWidth_eq, BitVec.neg_neg]
  · rw [BitVec.ofNat_toNat, BitVec.setWidth_eq]

theorem digitText_cons (printed : Printed radix l n) (small : radix ≤ 16) : ∃ c ds, digitText l = c :: ds ∧
    c ≠ '-'.toUInt8 ∧ c ≠ '+'.toUInt8 ∧ isSpace c = false := by
  have all : ∀ i < 16, digitChar i ≠ '-'.toUInt8 ∧ digitChar i ≠ '+'.toUInt8 ∧ isSpace (digitChar i) = false := by decide
  have first : ∀ c ∈ digitText l, c ≠ '-'.toUInt8 ∧ c ≠ '+'.toUInt8 ∧ isSpace c = false :=
    digitText_forall printed.digits fun i digit => all i (by omega)
  cases text : digitText l with
  | nil =>
      rw [digitText, List.map_eq_nil_iff, List.reverse_eq_nil_iff] at text
      exact absurd text printed.nonempty
  | cons c ds => exact ⟨c, ds, rfl, first c (by rw [text]; exact List.mem_cons_self)⟩

theorem atoi_text (printed : Printed 10 l (magnitude num 10)) : atoi (signOf num 10 ++ digitText l) = num := by
  have value := atoiLoop_digitText printed
  have back := signed_magnitude num
  obtain ⟨c, ds, text, noSign, -, -⟩ := digitText_cons printed (by decide)
  rw [signOf]
  by_cases sign : hasSign num 10 = true
  · rw [if_pos sign] at back ⊢
    rw [List.singleton_append, atoi, if_pos rfl, value, BitVec.mul_neg, show (1 : BitVec 32) = 1#32 from rfl, BitVec.mul_one, back]
  · rw [if_neg sign] at back ⊢
    rw [text] at value ⊢
    rw [List.nil_append, atoi, if_neg noSign, value, back]

/-! ## Scanning -/

variable {rest : List UInt8} {p : UInt8 → Bool} {ds : List UInt8} {s : ScanStream}

theorem readInput_append (all : ∀ c ∈ ds, p c = true) (stop : ∀ c ∈ rest.head?, p c = false) :
    ScanStream.readInput p (ds ++ rest) = (ds, rest.head?, rest.tail) := by
  induction ds with
  | nil =>
      cases rest with
      | nil => rfl
      | cons c rest => rw [List.nil_append, ScanStream.readInput, if_neg (by simp [stop c rfl])]; rfl
  | cons c ds ih =>
      rw [List.cons_append, ScanStream.readInput, if_pos (all c List.mem_cons_self),
        ih fun c member => all c (List.mem_cons_of_mem _ member)]

theorem readWhile_eq (p : UInt8 → Bool) (s : ScanStream) : s.readWhile p =
    ((ScanStream.readInput p s.chars).1, (ScanStream.readInput p s.chars).2.1, ⟨none, (ScanStream.readInput p s.chars).2.2⟩) := by
  obtain ⟨ungot, input⟩ := s
  rcases ungot with _ | c
  · cases input with
    | nil => rfl
    | cons c input =>
        by_cases meets : p c = true <;>
          simp [ScanStream.readWhile, ScanStream.getc, ScanStream.readInput, ScanStream.chars, meets]
  · by_cases meets : p c = true <;>
      simp [ScanStream.readWhile, ScanStream.getc, ScanStream.readInput, ScanStream.chars, meets]

theorem getc_input (input : List UInt8) : (ScanStream.mk none input).getc = (input.head?, ⟨none, input.tail⟩) := by
  cases input with
  | nil => rfl
  | cons c input => rfl

theorem chars_ungetc (input : List UInt8) : ((ScanStream.mk none input.tail).ungetc input.head?).chars = input := by
  cases input with
  | nil => rfl
  | cons c input => rfl

theorem vdscanf_directive {d : UInt8} {input : List UInt8} {v : Value}
    (done : ∃ s', directive d ⟨none, input⟩ = assigns s' v) :
    (vdscanf input ['%'.toUInt8, d]).assigned = 1 ∧ (vdscanf input ['%'.toUInt8, d]).values = [v] := by
  obtain ⟨s', done⟩ := done
  rw [vdscanf, scan_percent, done]
  exact ⟨rfl, rfl⟩

theorem chars_mk (l : List UInt8) : (ScanStream.mk l.head? l.tail).chars = l := by
  cases l <;> rfl

theorem skipSpace_chars {c : UInt8} (chars : s.chars = c :: rest) (other : isSpace c = false) : s.skipSpace = ⟨some c, rest⟩ := by
  rw [skipSpace_eq, chars, ScanStream.readInput, if_neg (by simp [other])]

theorem scanDigits_reads {c : UInt8} (neg : Bool) (all : ∀ b ∈ c :: ds, isDigit b = true)
    (stop : ∀ b ∈ rest.head?, isDigit b = false) (chars : s.chars = ds ++ rest) :
    scanDigits (some c) neg s = assigns ⟨rest.head?, rest.tail⟩ (.int (if neg then -decimal (c :: ds) else decimal (c :: ds))) := by
  rw [scanDigits, if_pos (all c List.mem_cons_self), readWhile_eq, chars,
    readInput_append (fun b member => all b (List.mem_cons_of_mem c member)) stop]
  rfl

theorem scanInt_reads (printed : Printed 10 l (magnitude num 10))
    (stop : ∀ b ∈ rest.head?, isDigit b = false) (chars : s.chars = signOf num 10 ++ digitText l ++ rest) :
    ∃ s', directive 'd'.toUInt8 s = assigns s' (.int num) ∧ s'.chars = rest := by
  have value := decimal_digitText printed
  have back := signed_magnitude num
  obtain ⟨c, ds, text, noMinus, noPlus, noSpace⟩ := digitText_cons printed (by decide)
  have all : ∀ b ∈ c :: ds, isDigit b = true := by
    rw [← text]
    exact digitText_forall printed.digits (by decide)
  refine ⟨⟨rest.head?, rest.tail⟩, ?_, chars_mk rest⟩
  change scanInt s.skipSpace = _
  rw [text] at value chars
  by_cases sign : hasSign num 10 = true
  · rw [signOf, if_pos sign, List.singleton_append, List.cons_append] at chars
    rw [if_pos sign] at back
    rw [skipSpace_chars chars (by decide), scanInt, ScanStream.getc]
    dsimp only
    rw [if_pos rfl]
    refine (scanDigits_reads true all stop (s := ⟨none, ds ++ rest⟩) rfl).trans ?_
    rw [if_pos rfl, value, back]
  · rw [signOf, if_neg sign, List.nil_append, List.cons_append] at chars
    rw [if_neg sign] at back
    rw [skipSpace_chars chars noSpace, scanInt, ScanStream.getc]
    dsimp only
    rw [if_neg noMinus, if_neg noPlus, scanDigits_reads false all stop (s := ⟨none, ds ++ rest⟩) rfl, if_neg Bool.false_ne_true, value,
      back]

theorem scanHexDigits_reads {c : UInt8} (all : ∀ b ∈ c :: ds, (hexDigit b).isSome = true)
    (stop : ∀ b ∈ rest.head?, (hexDigit b).isSome = false) (chars : s.chars = ds ++ rest) :
    scanHexDigits (some c) s = assigns ⟨rest.head?, rest.tail⟩ (.unsigned (hexadecimal (c :: ds))) := by
  rw [scanHexDigits, if_pos (all c List.mem_cons_self), readWhile_eq, chars,
    readInput_append (fun b member => all b (List.mem_cons_of_mem c member)) stop]
  rfl

theorem scanHex_reads (printed : Printed 16 l n)
    (stop : ∀ b ∈ rest.head?, hexDigit b = none ∧ b ≠ 'x'.toUInt8 ∧ b ≠ 'X'.toUInt8) (chars : s.chars = digitText l ++ rest) :
    ∃ s', directive 'x'.toUInt8 s = assigns s' (.unsigned (BitVec.ofNat 32 n)) ∧ s'.chars = rest := by
  have value := hexadecimal_digitText printed
  obtain ⟨c, ds, text, -, -, noSpace⟩ := digitText_cons printed (by decide)
  have all : ∀ b ∈ c :: ds, (hexDigit b).isSome = true ∧ b ≠ 'x'.toUInt8 ∧ b ≠ 'X'.toUInt8 := by
    rw [← text]
    exact digitText_forall printed.digits (by decide)
  have ends : ∀ b ∈ rest.head?, (hexDigit b).isSome = false := fun b member => by rw [(stop b member).1]; rfl
  rw [text] at value chars
  have reads (s : ScanStream) (chars : s.chars = ds ++ rest) :
      scanHexDigits (some c) s = assigns ⟨rest.head?, rest.tail⟩ (.unsigned (BitVec.ofNat 32 n)) := by
    rw [← value]
    exact scanHexDigits_reads (fun b member => (all b member).1) ends chars
  refine ⟨⟨rest.head?, rest.tail⟩, ?_, chars_mk rest⟩
  change scanHex s.skipSpace = _
  rw [skipSpace_chars chars noSpace, scanHex, ScanStream.getc]
  dsimp only
  by_cases zero : c = '0'.toUInt8
  · -- a number prints no `x` behind its first digit
    have noPrefix : ¬ ((ds ++ rest).head? = some 'x'.toUInt8 ∨ (ds ++ rest).head? = some 'X'.toUInt8) := by
      have other : ∀ b ∈ (ds ++ rest).head?, b ≠ 'x'.toUInt8 ∧ b ≠ 'X'.toUInt8 := by
        intro b member
        cases ds with
        | nil => exact (stop b member).2
        | cons d ds =>
            cases member
            exact (all b (by simp)).2
      rintro (lower | upper)
      · exact (other _ lower).1 rfl
      · exact (other _ upper).2 rfl
    have whole : ds.append rest = ds ++ rest := rfl
    rw [if_pos zero, whole, getc_input]
    dsimp only
    rw [if_neg noPrefix]
    exact reads _ (chars_ungetc (ds ++ rest))
  · rw [if_neg zero]
    exact reads _ rfl

end

/-- What `itoa` prints is as long as `intlen` says, and `atoi` and `vdscanf` read it back. -/
theorem itoa_round_trip (num : BitVec 32) :
    (∀ radix ∈ [2, 10, 16], ∃ text, itoa num radix = some text ∧ intlen num radix = some text.length) ∧
    (∃ text, itoa num 10 = some text ∧ atoi text = num ∧ ∀ rest : List UInt8, (∀ c ∈ rest.head?, isDigit c = false) →
      (vdscanf (text ++ rest) ['%'.toUInt8, 'd'.toUInt8]).assigned = 1 ∧
      (vdscanf (text ++ rest) ['%'.toUInt8, 'd'.toUInt8]).values = [.int num]) ∧
    ∃ text, itoa num 16 = some text ∧ ∀ rest : List UInt8,
      (∀ c ∈ rest.head?, hexDigit c = none ∧ c ≠ 'x'.toUInt8 ∧ c ≠ 'X'.toUInt8) →
      (vdscanf (text ++ rest) ['%'.toUInt8, 'x'.toUInt8]).assigned = 1 ∧
      (vdscanf (text ++ rest) ['%'.toUInt8, 'x'.toUInt8]).values = [.unsigned num] := by
  refine ⟨fun radix member => ?_, ?_, ?_⟩
  · have base : 1 < radix := by
      revert radix
      decide
    obtain ⟨l, -, text, length⟩ := itoa_spec base num
    exact ⟨_, text, length⟩
  · obtain ⟨l, printed, text, -⟩ := itoa_spec (show 1 < 10 by decide) num
    exact ⟨_, text, atoi_text printed, fun rest stop =>
      vdscanf_directive ((scanInt_reads (s := ⟨none, _⟩) printed stop rfl).imp fun _ done => done.1)⟩
  · obtain ⟨l, printed, text, -⟩ := itoa_spec (show 1 < 16 by decide) num
    have sign : ¬ hasSign num 16 = true := by simp [hasSign]
    rw [magnitude, if_neg sign] at printed
    rw [signOf, if_neg sign, List.nil_append] at text
    refine ⟨_, text, fun rest stop => vdscanf_directive ?_⟩
    have done := (scanHex_reads (s := ⟨none, _⟩) printed stop rfl).imp fun _ done => done.1
    rwa [BitVec.ofNat_toNat, BitVec.setWidth_eq] at done

-- the most negative number, before a letter
theorem itoa_round_trip_lowest : ∃ text, itoa (BitVec.ofNat 32 (2 ^ 31)) 10 = some text ∧
    (vdscanf (text ++ ['a'.toUInt8]) ['%'.toUInt8, 'd'.toUInt8]).values = [.int (BitVec.ofNat 32 (2 ^ 31))] := by
  obtain ⟨text, printed, -, scans⟩ := (itoa_round_trip (BitVec.ofNat 32 (2 ^ 31))).2.1
  have stops : ∀ c ∈ ['a'.toUInt8].head?, isDigit c = false := by
    intro c first
    obtain rfl := Option.some.inj first
    decide
  exact ⟨text, printed, (scans ['a'.toUInt8] stops).2⟩

end Kerosene.Libc
