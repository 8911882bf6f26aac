import Mathlib.Data.List.TakeWhile
import Mathlib.Logic.Function.Basic
import Mathlib.Algebra.Group.Nat.Defs

/-!
# `strtok_r`

A token is ended by a zero in place of the delimiter behind it. Further delimiters stay in the string.
-/

namespace Kerosene.Libc

abbrev Chars := Nat → UInt8

/-! ## The function -/

-- the fuel of both loops bounds the length of the string
def skipDelimiters (text : Chars) (delimiters : List UInt8) : (fuel : Nat) → (token : Nat) → Option Nat
  | 0, _ => none
  | fuel + 1, token =>
      if text token ≠ 0 ∧ text token ∈ delimiters then skipDelimiters text delimiters fuel (token + 1) else some token

def findDelimiter (text : Chars) (delimiters : List UInt8) : (fuel : Nat) → (pos : Nat) → Option Nat
  | 0, _ => none
  | fuel + 1, pos =>
      if text pos ≠ 0 ∧ text pos ∉ delimiters then findDelimiter text delimiters fuel (pos + 1) else some pos

structure Strtok where
  tokStart : Option Nat
  text : Chars
  tokenPtr : Option Nat

-- the function from the first loop on
def strtokFrom (text : Chars) (token : Nat) (delimiters : List UInt8) : Option Strtok := do
  let token ← skipDelimiters text delimiters (2 ^ 32) token
  if text token = 0 then return ⟨none, text, some token⟩
  let pos ← findDelimiter text delimiters (2 ^ 32) token
  if text pos ≠ 0 then return ⟨some token, Function.update text pos 0, some (pos + 1)⟩
  return ⟨some token, text, some pos⟩

def strtokR (text : Chars) (str : Option Nat) (delimiters : List UInt8) (tokenPtr : Option Nat) : Option Strtok :=
  match str, tokenPtr with
  | some str, _ => strtokFrom text str delimiters
  | none, none => some ⟨none, text, none⟩
  | none, some token => if text token = 0 then some ⟨none, text, some token⟩ else strtokFrom text token delimiters

/-- `while(strtok(NULL, delimiters));` -/
def strtokRest (delimiters : List UInt8) : (fuel : Nat) → (text : Chars) → (tokenPtr : Option Nat) → Option Chars
  | 0, _, _ => none
  | fuel + 1, text, tokenPtr => do
      let next ← strtokR text none delimiters tokenPtr
      if next.tokStart.isSome then strtokRest delimiters fuel next.text next.tokenPtr else return next.text

/-! ## Strings -/

def StringAt (text : Chars) (a : Nat) : List UInt8 → Prop
  | [] => text a = 0
  | c :: s => text a = c ∧ c ≠ 0 ∧ StringAt text (a + 1) s

variable {text text' : Chars} {delimiters g w s u : List UInt8} {a d fuel : Nat} {c : UInt8}

theorem StringAt.congr (string : StringAt text a s) (same : ∀ i, a ≤ i → i ≤ a + s.length → text' i = text i) :
    StringAt text' a s := by
  induction s generalizing a with
  | nil => exact (same a le_rfl (Nat.le_add_right _ _)).trans string
  | cons c s ih =>
      rw [List.length_cons] at same
      obtain ⟨here, nonzero, rest⟩ := string
      exact ⟨(same a le_rfl (by omega)).trans here, nonzero, ih rest fun i low high => same i (by omega) (by omega)⟩

theorem stringAt_of_get (get : ∀ i (inside : i < s.length), text (a + i) = s[i]) (noNul : 0 ∉ s)
    (ends : text (a + s.length) = 0) : StringAt text a s := by
  induction s generalizing a with
  | nil => exact ends
  | cons c s ih =>
      rw [List.mem_cons, not_or] at noNul
      refine ⟨get 0 (Nat.succ_pos _), Ne.symm noNul.1, ih (fun i inside => ?_) noNul.2 ?_⟩
      · have here := get (i + 1) (Nat.succ_lt_succ inside)
        rwa [List.getElem_cons_succ, ← Nat.add_assoc, Nat.add_right_comm] at here
      · rwa [List.length_cons, ← Nat.add_assoc, Nat.add_right_comm] at ends

theorem StringAt.drop (string : StringAt text a (w ++ s)) : StringAt text (a + w.length) s := by
  induction w generalizing a with
  | nil => exact string
  | cons c w ih =>
      have rest := ih string.2.2
      rwa [Nat.add_assoc, Nat.add_comm 1] at rest

theorem StringAt.take (string : StringAt text a (w ++ s)) (ends : text' (a + w.length) = 0)
    (same : ∀ i, a ≤ i → i < a + w.length → text' i = text i) : StringAt text' a w := by
  induction w generalizing a with
  | nil => exact ends
  | cons c w ih =>
      rw [List.length_cons] at same ends
      refine ⟨(same a le_rfl (by omega)).trans string.1, string.2.1, ih string.2.2 ?_ fun i low high => ?_⟩
      · rw [← ends]
        congr 1
        omega
      · exact same i (by omega) (by omega)

theorem StringAt.get (string : StringAt text a s) {i : Nat} (inside : i < s.length) : text (a + i) = s[i] := by
  induction s generalizing a i with
  | nil => exact absurd inside (Nat.not_lt_zero i)
  | cons c s ih =>
      cases i with
      | zero => exact string.1
      | succ i =>
          rw [List.getElem_cons_succ, ← ih string.2.2 (Nat.lt_of_succ_lt_succ inside), Nat.add_right_comm, Nat.add_assoc]

theorem StringAt.end (string : StringAt text a s) : text (a + s.length) = 0 := by
  rw [← List.append_nil s] at string
  exact string.drop

theorem StringAt.head_ne_zero (string : StringAt text a (c :: s)) : text a ≠ 0 := by
  rw [string.1]
  exact string.2.1

theorem strtokR_from (string : StringAt text a s) (more : s ≠ []) :
    strtokR text none delimiters (some a) = strtokFrom text a delimiters := by
  obtain ⟨c, s, rfl⟩ := List.exists_cons_of_ne_nil more
  exact if_neg string.head_ne_zero

/-! ## One token -/

-- nothing, or a character that `p` holds for
def Stops (p : UInt8 → Prop) (s : List UInt8) : Prop := ∀ c ∈ s.head?, p c

theorem skipDelimiters_eq (string : StringAt text a (g ++ s)) (gap : ∀ c ∈ g, c ∈ delimiters) (stops : Stops (· ∉ delimiters) s)
    (enough : g.length < fuel) : skipDelimiters text delimiters fuel a = some (a + g.length) := by
  induction g generalizing a fuel with
  | nil =>
      obtain ⟨fuel, rfl⟩ := Nat.exists_eq_add_of_lt enough
      rw [List.length_nil, Nat.zero_add, skipDelimiters, if_neg]
      · rfl
      rintro ⟨nonzero, delimiter⟩
      cases s with
      | nil => exact nonzero string
      | cons c s => exact stops c rfl (string.1 ▸ delimiter)
  | cons c g ih =>
      rw [List.length_cons] at enough
      obtain ⟨fuel, rfl⟩ := Nat.exists_eq_add_of_lt enough
      have here : text a ∈ delimiters := string.1 ▸ gap c List.mem_cons_self
      rw [skipDelimiters, if_pos ⟨string.head_ne_zero, here⟩,
        ih string.2.2 (fun c member => gap c (List.mem_cons_of_mem _ member)) (by omega), List.length_cons]
      congr 1
      omega

theorem findDelimiter_eq (string : StringAt text a (w ++ s)) (word : ∀ c ∈ w, c ∉ delimiters) (stops : Stops (· ∈ delimiters) s)
    (enough : w.length < fuel) : findDelimiter text delimiters fuel a = some (a + w.length) := by
  induction w generalizing a fuel with
  | nil =>
      obtain ⟨fuel, rfl⟩ := Nat.exists_eq_add_of_lt enough
      rw [List.length_nil, Nat.zero_add, findDelimiter, if_neg]
      · rfl
      rintro ⟨nonzero, other⟩
      cases s with
      | nil => exact nonzero string
      | cons c s => exact other (string.1 ▸ stops c rfl)
  | cons c w ih =>
      rw [List.length_cons] at enough
      obtain ⟨fuel, rfl⟩ := Nat.exists_eq_add_of_lt enough
      have here : text a ∉ delimiters := string.1 ▸ word c List.mem_cons_self
      rw [findDelimiter, if_pos ⟨string.head_ne_zero, here⟩,
        ih string.2.2 (fun c member => word c (List.mem_cons_of_mem _ member)) (by omega), List.length_cons]
      congr 1
      omega

theorem strtokFrom_gap (string : StringAt text a g) (gap : ∀ c ∈ g, c ∈ delimiters) (small : g.length < 2 ^ 32) :
    strtokFrom text a delimiters = some ⟨none, text, some (a + g.length)⟩ := by
  have skipped := skipDelimiters_eq (s := []) (by rwa [List.append_nil]) gap (fun c member => nomatch member) small
  rw [strtokFrom, skipped, Option.bind_eq_bind, Option.bind_some, if_pos string.end]
  rfl

section
variable (gap : ∀ c ∈ g, c ∈ delimiters) (nonempty : w ≠ []) (word : ∀ c ∈ w, c ∉ delimiters)
include gap nonempty word

theorem strtokFrom_last (string : StringAt text a (g ++ w)) (small : (g ++ w).length < 2 ^ 32) :
    strtokFrom text a delimiters = some ⟨some (a + g.length), text, some (a + g.length + w.length)⟩ := by
  rw [List.length_append] at small
  have begins : Stops (· ∉ delimiters) w := fun c first => word c (List.mem_of_mem_head? first)
  have skipped := skipDelimiters_eq string gap begins (show g.length < 2 ^ 32 by omega)
  have found := findDelimiter_eq (s := []) (by rw [List.append_nil]; exact string.drop) word (fun c member => nomatch member)
    (show w.length < 2 ^ 32 by omega)
  have ends := string.drop.end
  obtain ⟨c, w, rfl⟩ := List.exists_cons_of_ne_nil nonempty
  rw [strtokFrom, skipped, Option.bind_eq_bind, Option.bind_some, if_neg string.drop.head_ne_zero, found, Option.bind_some,
    if_neg (not_not_intro ends)]
  rfl

theorem strtokFrom_next {e : UInt8} (string : StringAt text a (g ++ (w ++ e :: u))) (delimiter : e ∈ delimiters)
    (small : (g ++ (w ++ e :: u)).length < 2 ^ 32) : strtokFrom text a delimiters =
      some ⟨some (a + g.length), Function.update text (a + g.length + w.length) 0, some (a + g.length + w.length + 1)⟩ := by
  rw [List.length_append, List.length_append] at small
  have begins : Stops (· ∉ delimiters) (w ++ e :: u) := by
    intro c first
    obtain ⟨c', w, rfl⟩ := List.exists_cons_of_ne_nil nonempty
    cases first
    exact word _ List.mem_cons_self
  have skipped := skipDelimiters_eq string gap begins (show g.length < 2 ^ 32 by omega)
  have ended : Stops (· ∈ delimiters) (e :: u) := fun c first => by cases first; exact delimiter
  have found := findDelimiter_eq string.drop word ended (show w.length < 2 ^ 32 by omega)
  have ends := string.drop.drop.head_ne_zero
  obtain ⟨c, w, rfl⟩ := List.exists_cons_of_ne_nil nonempty
  rw [strtokFrom, skipped, Option.bind_eq_bind, Option.bind_some, if_neg string.drop.head_ne_zero, found, Option.bind_some,
    if_pos ends]
  rfl

end

/-! ## All tokens -/

-- a string is a gap, or its first token stands behind one
theorem exists_token (delimiters s : List UInt8) : (∀ c ∈ s, c ∈ delimiters) ∨
    ∃ g w rest, s = g ++ (w ++ rest) ∧ (∀ c ∈ g, c ∈ delimiters) ∧ w ≠ [] ∧ (∀ c ∈ w, c ∉ delimiters) ∧
      Stops (· ∈ delimiters) rest := by
  induction s with
  | nil => exact .inl fun c member => nomatch member
  | cons c s ih =>
      by_cases here : c ∈ delimiters
      · rcases ih with gap | ⟨g, w, rest, rfl, gap, token⟩
        · exact .inl (List.forall_mem_cons.mpr ⟨here, gap⟩)
        · exact .inr ⟨c :: g, w, rest, rfl, List.forall_mem_cons.mpr ⟨here, gap⟩, token⟩
      · refine .inr ⟨[], c :: s.takeWhile (· ∉ delimiters), s.dropWhile (· ∉ delimiters), ?_, fun c member => (nomatch member),
          List.cons_ne_nil _ _, List.forall_mem_cons.mpr ⟨here, fun c member => ?_⟩, fun c first => ?_⟩
        · rw [List.nil_append, List.cons_append, List.takeWhile_append_dropWhile]
        · have other := List.mem_takeWhile_imp member
          simpa using other
        · have stopped := List.head?_dropWhile_not (fun c => decide (c ∉ delimiters)) s
          rw [first] at stopped
          simpa using stopped

/-- A delimiter directly behind another character is zero. -/
def tokenized (text : Chars) (delimiters : List UInt8) (a n : Nat) : Chars := fun j =>
  if a < j ∧ j < a + n ∧ text j ∈ delimiters ∧ text (j - 1) ∉ delimiters then 0 else text j

theorem tokenized_outside {n j : Nat} (outside : j ≤ a ∨ a + n ≤ j) : tokenized text delimiters a n j = text j :=
  if_neg fun all => by omega

theorem tokenized_congr {n j : Nat} (same : text' j = text j) (before : a < j → text' (j - 1) = text (j - 1)) :
    tokenized text' delimiters a n j = tokenized text delimiters a n j := by
  rw [tokenized, tokenized, same]
  refine if_congr (and_congr_right fun behind => ?_) rfl rfl
  rw [before behind]

theorem tokenized_gap (string : StringAt text a (g ++ s)) (gap : ∀ c ∈ g, c ∈ delimiters) {n j : Nat}
    (inside : j ≤ a + g.length) : tokenized text delimiters a n j = text j := by
  refine if_neg fun ⟨behind, _, _, other⟩ => other ?_
  obtain ⟨i, rfl⟩ := Nat.exists_eq_add_of_lt behind
  have bound : i < (g ++ s).length := by rw [List.length_append]; omega
  rw [Nat.add_sub_cancel, string.get bound, List.getElem_append_left (by omega)]
  exact gap _ (List.getElem_mem _)

theorem tokenized_word (string : StringAt text a (g ++ (w ++ s))) (word : ∀ c ∈ w, c ∉ delimiters) {n j : Nat}
    (low : a + g.length ≤ j) (inside : j < a + g.length + w.length) : tokenized text delimiters a n j = text j := by
  refine if_neg fun ⟨_, _, delimiter, _⟩ => ?_
  obtain ⟨i, rfl⟩ := Nat.exists_eq_add_of_le low
  have bound : i < (w ++ s).length := by rw [List.length_append]; omega
  rw [string.drop.get bound, List.getElem_append_left (by omega)] at delimiter
  exact word _ (List.getElem_mem _) delimiter

section
variable {e : UInt8} (string : StringAt text a (g ++ (w ++ e :: u))) (nonempty : w ≠ []) (word : ∀ c ∈ w, c ∉ delimiters)
  (delimiter : e ∈ delimiters)
include string nonempty word delimiter

theorem tokenized_end : tokenized text delimiters a (g ++ (w ++ e :: u)).length (a + g.length + w.length) = 0 := by
  have positive := List.length_pos_iff.mpr nonempty
  have bound : w.length - 1 < (w ++ e :: u).length := by rw [List.length_append]; omega
  refine if_pos ⟨by omega, ?_, ?_, ?_⟩
  · rw [List.length_append, List.length_append, List.length_cons]
    omega
  · rw [string.drop.drop.1]
    exact delimiter
  · rw [Nat.add_sub_assoc positive, string.drop.get bound, List.getElem_append_left (by omega)]
    exact word _ (List.getElem_mem _)

omit nonempty word in
theorem tokenized_behind {j : Nat} (behind : a + g.length + w.length + 1 ≤ j) :
    tokenized text delimiters a (g ++ (w ++ e :: u)).length j =
      tokenized text delimiters (a + g.length + w.length + 1) u.length j := by
  have ends : a + (g ++ (w ++ e :: u)).length = a + g.length + w.length + 1 + u.length := by
    rw [List.length_append, List.length_append, List.length_cons]
    omega
  rw [tokenized, tokenized, ends]
  refine if_congr ⟨fun ⟨_, all⟩ => ⟨?_, all⟩, fun ⟨less, all⟩ => ⟨by omega, all⟩⟩ rfl rfl
  -- the character before is the delimiter
  refine lt_of_le_of_ne behind fun here => all.2.2 ?_
  rw [← here, Nat.add_sub_cancel, string.drop.drop.1]
  exact delimiter

end

/-- By induction on the calls that are left. -/
theorem strtokRest_eq (string : StringAt text a s) (small : s.length < 2 ^ 32) (enough : s.length < fuel) :
    strtokRest delimiters fuel text (some a) = some (tokenized text delimiters a s.length) := by
  induction fuel generalizing text a s with
  | zero => exact absurd enough (Nat.not_lt_zero _)
  | succ fuel ih =>
      rcases exists_token delimiters s with gap | ⟨g, w, rest, rfl, gap, nonempty, word, stops⟩
      · have same : tokenized text delimiters a s.length = text := by
          funext j
          by_cases inside : j ≤ a + s.length
          · exact tokenized_gap (s := []) (by rwa [List.append_nil]) gap inside
          · exact tokenized_outside (by omega)
        have none_left : ∃ next, strtokR text none delimiters (some a) = some ⟨none, text, next⟩ := by
          by_cases ended : s = []
          · subst ended
            exact ⟨some a, if_pos string⟩
          · exact ⟨_, (strtokR_from string ended).trans (strtokFrom_gap string gap small)⟩
        obtain ⟨next, call⟩ := none_left
        rw [strtokRest, call, same]
        rfl
      rw [strtokRest, strtokR_from string (by simp [nonempty])]
      cases rest with
      | nil =>
          have same : tokenized text delimiters a (g ++ (w ++ [])).length = text := by
            funext j
            by_cases before : j ≤ a + g.length
            · exact tokenized_gap string gap before
            · by_cases inside : j < a + g.length + w.length
              · exact tokenized_word string word (by omega) inside
              · refine tokenized_outside (.inr ?_)
                rw [List.append_nil, List.length_append]
                omega
          rw [List.append_nil] at *
          have positive := List.length_pos_iff.mpr nonempty
          rw [strtokFrom_last gap nonempty word string small, same, Option.bind_eq_bind, Option.bind_some,
            if_pos (show (some (a + g.length)).isSome = true from rfl)]
          dsimp only
          rw [List.length_append] at enough
          rw [ih (s := []) string.drop.end (by decide) (by rw [List.length_nil]; omega)]
          exact congrArg some (funext fun j => tokenized_outside (by rw [List.length_nil]; omega))
      | cons e u =>
          have delimiter : e ∈ delimiters := stops e rfl
          generalize here : a + g.length + w.length = p at *
          have rest : StringAt (Function.update text p 0) (p + 1) u := by
            have tail := string.drop.drop.2.2
            rw [here] at tail
            exact tail.congr fun i low _ => Function.update_of_ne (by omega) _ _
          rw [strtokFrom_next gap nonempty word string delimiter small, here, Option.bind_eq_bind, Option.bind_some,
            if_pos (show (some (a + g.length)).isSome = true from rfl)]
          dsimp only
          rw [List.length_append, List.length_append, List.length_cons] at small enough
          rw [ih rest (by omega) (by omega)]
          congr 1
          funext j
          rcases Nat.lt_trichotomy j p with before | rfl | behind
          · rw [tokenized_outside (by omega), Function.update_of_ne (by omega)]
            by_cases front : j ≤ a + g.length
            · exact (tokenized_gap string gap front).symm
            · exact (tokenized_word string word (by omega) (by omega)).symm
          · rw [tokenized_outside (by omega), Function.update_self, ← here, tokenized_end string nonempty word delimiter]
          · rw [tokenized_behind string delimiter (by omega), here]
            exact tokenized_congr (Function.update_of_ne (by omega) _ _) fun later => Function.update_of_ne (by omega) _ _

theorem strtokFrom_first {rest : List UInt8} (string : StringAt text a (g ++ (w ++ rest)))
    (small : (g ++ (w ++ rest)).length < 2 ^ 32) (gap : ∀ c ∈ g, c ∈ delimiters) (nonempty : w ≠ [])
    (word : ∀ c ∈ w, c ∉ delimiters) (stops : Stops (· ∈ delimiters) rest) (enough : (g ++ (w ++ rest)).length ≤ fuel) :
    ∃ cut next, strtokFrom text a delimiters = some ⟨some (a + g.length), cut, next⟩ ∧ StringAt cut (a + g.length) w ∧
      strtokRest delimiters fuel cut next = some (tokenized text delimiters a (g ++ (w ++ rest)).length) := by
  have all : strtokRest delimiters (fuel + 1) text (some a) = _ := strtokRest_eq string small (Nat.lt_succ_of_le enough)
  rw [strtokRest, strtokR_from string (by simp [nonempty])] at all
  cases rest with
  | nil =>
      rw [List.append_nil] at *
      rw [strtokFrom_last gap nonempty word string small] at all ⊢
      exact ⟨_, _, rfl, string.drop, all⟩
  | cons e u =>
      rw [strtokFrom_next gap nonempty word string (stops e rfl) small] at all ⊢
      exact ⟨_, _, rfl, string.drop.take (Function.update_self ..) fun i low high => Function.update_of_ne (by omega) _ _, all⟩

end Kerosene.Libc
