import Kerosene.Libc.Tokens
import Mathlib.Data.List.Pairwise

/-!
# A string cut by `strtok_r`, call by call

A call reads what the calls before it have written. Behind the pointer they leave, the string stands as it was.
-/

namespace Kerosene.Libc

/-! ## The calls -/

/-- What each of the calls returns, and the buffer behind the last one. Only the first gets a string. -/
def strtokCalls (delimiters : List UInt8) : (calls : Nat) → (text : Chars) → (str tokenPtr : Option Nat) →
    Option (List (Option Nat) × Chars)
  | 0, text, _, _ => some ([], text)
  | calls + 1, text, str, tokenPtr => do
      let next ← strtokR text str delimiters tokenPtr
      let (results, text) ← strtokCalls delimiters calls next.text none next.tokenPtr
      return (next.tokStart :: results, text)

/-! ## Tokens -/

def InWord (delimiters s : List UInt8) (k : Nat) : Prop := ∃ c ∈ s[k]?, c ∉ delimiters

-- the characters from `i` on in front of `j`, and at least one
def FreeRange (delimiters s : List UInt8) (i j : Nat) : Prop := i < j ∧ ∀ k, i ≤ k → k < j → InWord delimiters s k

/-- No larger range is free of delimiters. -/
structure IsToken (delimiters s : List UInt8) (i j : Nat) : Prop where
  free : FreeRange delimiters s i j
  maximal : ∀ i' j', FreeRange delimiters s i' j' → i' ≤ i → j ≤ j' → i' = i ∧ j' = j

variable {text after : Chars} {delimiters g w s u rest : List UInt8} {tokens : List (Nat × Nat)} {a i j k n : Nat} {e : UInt8}

theorem isToken_iff : IsToken delimiters s i j ↔
    FreeRange delimiters s i j ∧ (∀ k, k + 1 = i → ¬InWord delimiters s k) ∧ ¬InWord delimiters s j := by
  constructor
  · rintro ⟨⟨some, free⟩, maximal⟩
    refine ⟨⟨some, free⟩, ?_, fun longer => ?_⟩
    · rintro k rfl longer
      have larger : FreeRange delimiters s k j := by
        refine ⟨by omega, fun l low high => ?_⟩
        rcases Nat.eq_or_lt_of_le low with rfl | later
        · exact longer
        · exact free l later high
      have same := (maximal k j larger (Nat.le_succ k) le_rfl).1
      omega
    · have larger : FreeRange delimiters s i (j + 1) := by
        refine ⟨by omega, fun l low high => ?_⟩
        rcases Nat.lt_succ_iff_lt_or_eq.mp high with earlier | rfl
        · exact free l low earlier
        · exact longer
      have same := (maximal i (j + 1) larger le_rfl (Nat.le_succ j)).2
      omega
  · rintro ⟨⟨some, free⟩, front, behind⟩
    refine ⟨⟨some, free⟩, fun i' j' ⟨_, free'⟩ low high => ⟨?_, ?_⟩⟩
    · by_contra other
      exact front (i - 1) (by omega) (free' (i - 1) (by omega) (by omega))
    · by_contra other
      exact behind (free' j (by omega) (by omega))

theorem not_inWord_gap (gap : ∀ c ∈ g, c ∈ delimiters) (inside : k < g.length) : ¬InWord delimiters (g ++ s) k := by
  rintro ⟨c, here, other⟩
  rw [List.getElem?_append_left inside] at here
  exact other (gap c (List.mem_of_getElem? here))

theorem not_inWord_stops (stops : Stops (· ∈ delimiters) rest) : ¬InWord delimiters (g ++ rest) g.length := by
  rintro ⟨c, here, other⟩
  rw [List.getElem?_append_right le_rfl, Nat.sub_self, ← List.head?_eq_getElem?] at here
  exact other (stops c here)

theorem inWord_behind : InWord delimiters (g ++ s) (g.length + k) ↔ InWord delimiters s k := by
  rw [InWord, InWord, List.getElem?_append_right (Nat.le_add_right _ _), Nat.add_sub_cancel_left]

theorem inWord_word (word : ∀ c ∈ w, c ∉ delimiters) (inside : k < w.length) : InWord delimiters (w ++ s) k := by
  refine ⟨w[k], ?_, word _ (List.getElem_mem inside)⟩
  rw [List.getElem?_append_left inside, List.getElem?_eq_getElem inside]
  rfl

theorem freeRange_behind : FreeRange delimiters (g ++ s) (g.length + i) (g.length + j) ↔ FreeRange delimiters s i j := by
  constructor
  · rintro ⟨some, free⟩
    exact ⟨by omega, fun k low high => inWord_behind.mp (free _ (by omega) (by omega))⟩
  · rintro ⟨some, free⟩
    refine ⟨by omega, fun k low high => ?_⟩
    obtain ⟨l, rfl⟩ := Nat.exists_eq_add_of_le (show g.length ≤ k by omega)
    exact inWord_behind.mpr (free l (by omega) (by omega))

theorem isToken_behind (delimiter : e ∈ delimiters) :
    IsToken delimiters (g ++ e :: u) (g.length + 1 + i) (g.length + 1 + j) ↔ IsToken delimiters u i j := by
  have split : g ++ e :: u = (g ++ [e]) ++ u := by rw [List.append_assoc, List.singleton_append]
  have length : g.length + 1 = (g ++ [e]).length := by rw [List.length_append, List.length_singleton]
  have edge : ¬InWord delimiters ((g ++ [e]) ++ u) g.length := by
    rw [← split]
    exact not_inWord_stops fun c here => by cases here; exact delimiter
  rw [isToken_iff, isToken_iff, split, length, freeRange_behind, inWord_behind]
  refine and_congr_right fun _ => and_congr_left fun _ => ⟨fun front k first inWord => ?_, fun front k first inWord => ?_⟩
  · exact front ((g ++ [e]).length + k) (by omega) (inWord_behind.mpr inWord)
  · by_cases start : i = 0
    · have here : k = g.length := by omega
      exact edge (here ▸ inWord)
    · obtain ⟨l, rfl⟩ := Nat.exists_eq_add_of_le (show (g ++ [e]).length ≤ k by omega)
      exact front l (by omega) (inWord_behind.mp inWord)

theorem isToken_first (gap : ∀ c ∈ g, c ∈ delimiters) (nonempty : w ≠ []) (word : ∀ c ∈ w, c ∉ delimiters)
    (stops : Stops (· ∈ delimiters) rest) (front : i ≤ g.length + w.length) :
    IsToken delimiters (g ++ (w ++ rest)) i j ↔ i = g.length ∧ j = g.length + w.length := by
  have positive := List.length_pos_iff.mpr nonempty
  have inside : ∀ k, k < w.length → InWord delimiters (g ++ (w ++ rest)) (g.length + k) := fun k less =>
    inWord_behind.mpr (inWord_word word less)
  have ends : ¬InWord delimiters (g ++ (w ++ rest)) (g.length + w.length) := fun inWord =>
    not_inWord_stops stops (inWord_behind.mp inWord)
  have gaps : ∀ k, k < g.length → ¬InWord delimiters (g ++ (w ++ rest)) k := fun k less => not_inWord_gap gap less
  rw [isToken_iff]
  constructor
  · rintro ⟨⟨some, free⟩, before, behind⟩
    have low : g.length ≤ i := Nat.le_of_not_lt fun less => gaps i less (free i le_rfl some)
    have high : j ≤ g.length + w.length := Nat.le_of_not_lt fun less => ends (free _ front less)
    obtain ⟨l, rfl⟩ := Nat.exists_eq_add_of_le low
    constructor
    · by_contra other
      exact before (g.length + (l - 1)) (by omega) (inside (l - 1) (by omega))
    · obtain ⟨m, rfl⟩ := Nat.exists_eq_add_of_le (show g.length ≤ j by omega)
      by_contra other
      exact behind (inside m (by omega))
  · rintro ⟨rfl, rfl⟩
    refine ⟨⟨by omega, fun k low high => ?_⟩, fun k first => gaps k (by omega), ends⟩
    obtain ⟨l, rfl⟩ := Nat.exists_eq_add_of_le low
    exact inside l (by omega)

/-! ## From token to token -/

-- the tokens as the calls find them: a gap and a word, and behind a delimiter the rest
inductive Tokens (delimiters : List UInt8) : List UInt8 → List (Nat × Nat) → Prop
  | gap {g : List UInt8} : (∀ c ∈ g, c ∈ delimiters) → Tokens delimiters g []
  | last {g w : List UInt8} : (∀ c ∈ g, c ∈ delimiters) → w ≠ [] → (∀ c ∈ w, c ∉ delimiters) →
      Tokens delimiters (g ++ w) [(g.length, g.length + w.length)]
  | next {g w u : List UInt8} {e : UInt8} {tokens : List (Nat × Nat)} : (∀ c ∈ g, c ∈ delimiters) → w ≠ [] →
      (∀ c ∈ w, c ∉ delimiters) → e ∈ delimiters → Tokens delimiters u tokens →
      Tokens delimiters (g ++ (w ++ e :: u)) ((g.length, g.length + w.length) ::
        tokens.map fun t => (g.length + w.length + 1 + t.1, g.length + w.length + 1 + t.2))

theorem exists_tokens (delimiters s : List UInt8) : ∃ tokens, Tokens delimiters s tokens := by
  induction length : s.length using Nat.strong_induction_on generalizing s with
  | _ n ih =>
      rcases exists_token delimiters s with gap | ⟨g, w, rest, rfl, gap, nonempty, word, stops⟩
      · exact ⟨[], .gap gap⟩
      cases rest with
      | nil =>
          rw [List.append_nil]
          exact ⟨_, .last gap nonempty word⟩
      | cons e u =>
          have shorter : u.length < n := by
            rw [← length, List.length_append, List.length_append, List.length_cons]
            omega
          obtain ⟨tokens, behind⟩ := ih u.length shorter u rfl
          exact ⟨_, .next gap nonempty word (stops e rfl) behind⟩

theorem Tokens.pairwise (walk : Tokens delimiters s tokens) : tokens.Pairwise fun t t' => t.2 < t'.1 := by
  induction walk with
  | gap => exact .nil
  | last => exact List.pairwise_singleton _ _
  | next _ _ _ _ _ ih =>
      refine .cons (fun t member => ?_) (List.pairwise_map.mpr (ih.imp fun less => by omega))
      obtain ⟨t, _, rfl⟩ := List.mem_map.mp member
      dsimp only
      omega

theorem Tokens.mem_iff (walk : Tokens delimiters s tokens) : (i, j) ∈ tokens ↔ IsToken delimiters s i j := by
  induction walk generalizing i j with
  | @gap g gap =>
      refine ⟨fun member => (nomatch member), fun token => ?_⟩
      obtain ⟨⟨some, free⟩, _⟩ := isToken_iff.mp token
      obtain ⟨c, here, other⟩ := free i le_rfl some
      exact absurd (gap c (List.mem_of_getElem? here)) other
  | @last g w gap nonempty word =>
      have first : i ≤ g.length + w.length → (IsToken delimiters (g ++ w) i j ↔ i = g.length ∧ j = g.length + w.length) := by
        intro front
        have ended : Stops (· ∈ delimiters) [] := fun c here => nomatch here
        rw [← isToken_first gap nonempty word ended front, List.append_nil]
      rw [List.mem_singleton, Prod.mk.injEq]
      constructor
      · rintro ⟨rfl, rfl⟩
        exact (first (by omega)).mpr ⟨rfl, rfl⟩
      · intro token
        obtain ⟨⟨some, free⟩, _⟩ := isToken_iff.mp token
        obtain ⟨c, here, _⟩ := free i le_rfl some
        have inside := (List.getElem?_eq_some_iff.mp here).1
        rw [List.length_append] at inside
        exact (first (by omega)).mp token
  | @next g w u e tokens gap nonempty word delimiter _ ih =>
      have stops : Stops (· ∈ delimiters) (e :: u) := fun c here => by cases here; exact delimiter
      have first : i ≤ g.length + w.length →
          (IsToken delimiters (g ++ (w ++ e :: u)) i j ↔ i = g.length ∧ j = g.length + w.length) :=
        isToken_first gap nonempty word stops
      have behind : ∀ i j, IsToken delimiters (g ++ (w ++ e :: u)) (g.length + w.length + 1 + i) (g.length + w.length + 1 + j) ↔
          IsToken delimiters u i j := by
        intro i j
        rw [← List.append_assoc, ← List.length_append]
        exact isToken_behind delimiter
      rw [List.mem_cons, Prod.mk.injEq, List.mem_map]
      constructor
      · rintro (⟨rfl, rfl⟩ | ⟨t, member, same⟩)
        · exact (first (by omega)).mpr ⟨rfl, rfl⟩
        · cases same
          exact (behind _ _).mpr (ih.mp member)
      · intro token
        by_cases front : i ≤ g.length + w.length
        · exact .inl ((first front).mp token)
        · have some := token.free.1
          obtain ⟨i, rfl⟩ := Nat.exists_eq_add_of_lt (Nat.lt_of_not_le front)
          obtain ⟨j, rfl⟩ := Nat.exists_eq_add_of_lt (show g.length + w.length < j by omega)
          rw [Nat.add_right_comm, Nat.add_right_comm _ j] at token ⊢
          exact .inr ⟨(i, j), ih.mpr ((behind i j).mp token), rfl⟩

/-! ## What the calls return -/

-- a delimiter of the string has become a zero
def OnlyCut (delimiters : List UInt8) (text after : Chars) (a n : Nat) : Prop :=
  ∀ j, after j ≠ text j → a ≤ j ∧ j < a + n ∧ text j ∈ delimiters ∧ after j = 0

structure Returned (delimiters s : List UInt8) (tokens : List (Nat × Nat)) (text : Chars) (a n : Nat)
    (results : List (Option Nat)) (after : Chars) : Prop where
  returns : results = (tokens.map fun t => some (a + t.1)).take n ++ List.replicate (n - tokens.length) none
  strings : ∀ t ∈ tokens.take n, StringAt after (a + t.1) ((s.drop t.1).take (t.2 - t.1))
  onlyCut : OnlyCut delimiters text after a s.length

theorem strtokCalls_ended (ended : text a = 0) :
    strtokCalls delimiters n text none (some a) = some (List.replicate n none, text) := by
  induction n with
  | zero => rfl
  | succ n ih =>
      have call : strtokR text none delimiters (some a) = some ⟨none, text, some a⟩ := if_pos ended
      rw [strtokCalls, call, Option.bind_eq_bind, Option.bind_some, ih]
      rfl

-- where the pointer left by the last call is at the end of the string, both branches agree
theorem strtokR_next (string : StringAt text a s) : strtokR text none delimiters (some a) = strtokFrom text a delimiters := by
  by_cases more : s = []
  · subst more
    rw [strtokFrom_gap string (fun c member => nomatch member) (by decide)]
    exact if_pos string
  · exact strtokR_from string more

theorem returned_nothing : Returned delimiters s tokens text a 0 [] text := by
  refine ⟨?_, fun t member => (nomatch member), fun j changed => absurd rfl changed⟩
  rw [List.take_zero, Nat.zero_sub]
  rfl

-- only the first range of a list of one
theorem returned_last (string : StringAt text (a + g.length) w) :
    Returned delimiters (g ++ w) [(g.length, g.length + w.length)] text a (n + 1)
      (some (a + g.length) :: List.replicate n none) text := by
  refine ⟨?_, fun t member => ?_, fun j changed => absurd rfl changed⟩
  · rw [List.map_singleton, List.take_succ_cons, List.take_nil, List.length_singleton, Nat.add_sub_cancel]
    rfl
  · rw [List.take_succ_cons, List.take_nil, List.mem_singleton] at member
    subst member
    rwa [List.drop_left, Nat.add_sub_cancel_left, List.take_length]

theorem returned_next {results : List (Option Nat)} (string : StringAt text a (g ++ (w ++ e :: u))) (delimiter : e ∈ delimiters)
    (rest : Returned delimiters u tokens (Function.update text (a + g.length + w.length) 0) (a + g.length + w.length + 1) n
      results after) :
    Returned delimiters (g ++ (w ++ e :: u)) ((g.length, g.length + w.length) ::
        tokens.map fun t => (g.length + w.length + 1 + t.1, g.length + w.length + 1 + t.2))
      text a (n + 1) (some (a + g.length) :: results) after := by
  obtain ⟨returns, strings, onlyCut⟩ := rest
  have unchanged : ∀ j, j ≤ a + g.length + w.length → after j = Function.update text (a + g.length + w.length) 0 j := by
    intro j low
    by_contra changed
    have inside := (onlyCut j changed).1
    omega
  refine ⟨?_, fun t member => ?_, fun j changed => ?_⟩
  · rw [returns, List.map_cons, List.take_succ_cons, List.map_map, List.length_cons, List.length_map, Nat.add_sub_add_right,
      List.cons_append]
    refine congrArg _ (congrArg (fun l => List.take n l ++ _) (List.map_congr_left fun t _ => congrArg some ?_))
    dsimp only
    omega
  · rw [List.take_succ_cons, List.mem_cons, ← List.map_take] at member
    rcases member with rfl | member
    · rw [List.drop_left, Nat.add_sub_cancel_left, List.take_left]
      refine string.drop.take ?_ fun i low high => ?_
      · rw [unchanged _ le_rfl, Function.update_self]
      · rw [unchanged i (by omega), Function.update_of_ne (by omega)]
    · obtain ⟨t, taken, rfl⟩ := List.mem_map.mp member
      have behind : (g ++ (w ++ e :: u)).drop (g.length + w.length + 1 + t.1) = u.drop t.1 := by
        rw [← List.drop_drop, ← List.append_assoc, ← List.length_append, ← List.drop_drop, List.drop_left]
        rfl
      have here := strings t taken
      dsimp only
      rwa [behind, Nat.add_sub_add_left, show a + (g.length + w.length + 1 + t.1) = a + g.length + w.length + 1 + t.1 by omega]
  · rw [List.length_append, List.length_append, List.length_cons]
    by_cases here : j = a + g.length + w.length
    · subst here
      refine ⟨by omega, by omega, ?_, ?_⟩
      · rw [string.drop.drop.1]
        exact delimiter
      · rw [unchanged _ le_rfl, Function.update_self]
    · have same : Function.update text (a + g.length + w.length) 0 j = text j := Function.update_of_ne here _ _
      obtain ⟨low, high, isDelimiter, zero⟩ := onlyCut j (by rwa [same])
      rw [same] at isDelimiter
      exact ⟨by omega, by omega, isDelimiter, zero⟩

/-- By induction on the tokens: one call for each, and behind the last one only NULL. -/
theorem Tokens.returned (walk : Tokens delimiters s tokens) (string : StringAt text a s) (small : s.length < 2 ^ 32) :
    ∃ results after, strtokCalls delimiters n text none (some a) = some (results, after) ∧
      Returned delimiters s tokens text a n results after := by
  induction walk generalizing n text a with
  | gap gap =>
      cases n with
      | zero => exact ⟨_, _, rfl, returned_nothing⟩
      | succ n =>
          rw [strtokCalls, strtokR_next string, strtokFrom_gap string gap small, Option.bind_eq_bind, Option.bind_some]
          dsimp only
          rw [strtokCalls_ended string.end]
          exact ⟨_, _, rfl, rfl, fun t member => (nomatch member), fun j changed => absurd rfl changed⟩
  | last gap nonempty word =>
      cases n with
      | zero => exact ⟨_, _, rfl, returned_nothing⟩
      | succ n =>
          rw [strtokCalls, strtokR_next string, strtokFrom_last gap nonempty word string small, Option.bind_eq_bind,
            Option.bind_some]
          dsimp only
          rw [strtokCalls_ended string.drop.end]
          exact ⟨_, _, rfl, returned_last string.drop⟩
  | @next g w u e tokens gap nonempty word delimiter walk ih =>
      cases n with
      | zero => exact ⟨_, _, rfl, returned_nothing⟩
      | succ n =>
          have behind : StringAt (Function.update text (a + g.length + w.length) 0) (a + g.length + w.length + 1) u :=
            string.drop.drop.2.2.congr fun i low _ => Function.update_of_ne (by omega) _ _
          have shorter : u.length < 2 ^ 32 := by
            rw [List.length_append, List.length_append, List.length_cons] at small
            omega
          obtain ⟨results, after, calls, rest⟩ := ih (n := n) behind shorter
          rw [strtokCalls, strtokR_next string, strtokFrom_next gap nonempty word string delimiter small, Option.bind_eq_bind,
            Option.bind_some]
          dsimp only
          rw [calls]
          exact ⟨_, _, rfl, returned_next string delimiter rest⟩

/-- Call by call, the tokens of the string in order, each a string of its own, and then only NULL. -/
theorem strtokCalls_tokens (delimiters s : List UInt8) (text : Chars) (a : Nat) (tokenPtr : Option Nat)
    (string : StringAt text a s) (fits : a + s.length < 2 ^ 32) :
    ∃ tokens : List (Nat × Nat), tokens.Pairwise (fun t t' => t.2 < t'.1) ∧
      (∀ i j, (i, j) ∈ tokens ↔ IsToken delimiters s i j) ∧
      ∀ calls, ∃ results after, strtokCalls delimiters calls text (some a) tokenPtr = some (results, after) ∧
        results = (tokens.map fun t => some (a + t.1)).take calls ++ List.replicate (calls - tokens.length) none ∧
        (∀ t ∈ tokens.take calls, StringAt after (a + t.1) ((s.drop t.1).take (t.2 - t.1))) ∧
        ∀ j, after j ≠ text j → a ≤ j ∧ j < a + s.length ∧ text j ∈ delimiters ∧ after j = 0 := by
  obtain ⟨tokens, walk⟩ := exists_tokens delimiters s
  refine ⟨tokens, walk.pairwise, fun i j => walk.mem_iff, fun calls => ?_⟩
  have first : strtokCalls delimiters calls text (some a) tokenPtr = strtokCalls delimiters calls text none (some a) := by
    cases calls with
    | zero => rfl
    | succ calls => rw [strtokCalls, strtokCalls, strtokR_next string, strtokR]
  obtain ⟨results, after, run, returns, strings, onlyCut⟩ := walk.returned (n := calls) string (by omega)
  exact ⟨results, after, first.trans run, returns, strings, onlyCut⟩

-- `a` and two slashes
theorem strtokCalls_tokens_path :
    ∃ results after, strtokCalls [47] 3 (fun j => [97, 47, 47].getD j 0) (some 0) none = some (results, after) ∧
      after 0 = 97 := by
  obtain ⟨tokens, _, _, calls⟩ := strtokCalls_tokens [47] [97, 47, 47] (fun j => [97, 47, 47].getD j 0) 0 none
    ⟨rfl, by decide, rfl, by decide, rfl, by decide, rfl⟩ (by decide)
  obtain ⟨results, after, run, _, _, onlyCut⟩ := calls 3
  refine ⟨results, after, run, ?_⟩
  by_contra changed
  exact absurd (onlyCut 0 changed).2.2.1 (by decide)

end Kerosene.Libc
