import Mathlib.Data.List.Induction
import Mathlib.Data.List.Infix
import Kerosene.Libc.Tokens
import Kerosene.Process.ArgumentVector

/-!
# keroshell

A line is typed into a buffer that is never cleared, and split where it stands.
-/

namespace Kerosene.Keroshell
open Libc Process

def bufferSize : Nat := 4096

def space : UInt8 := 0x20

def isprint (c : UInt8) : Bool := 0x20 ≤ c && c ≤ 0x7e

structure Shell where
  buffer : Chars
  bufferPtr : Nat

/-! ## `process_prompt` -/

inductive Prompted
  -- the text of the exit code, if there is one
  | exits (exitStr : Option Nat)
  | fails (prog : Nat)
  | spawns (prog : Nat) (args : Chars)

-- whether `strcmp` is zero
def strcmpZero (text : Chars) : (a : Nat) → List UInt8 → Bool
  | a, [] => text a == 0
  | a, c :: s => text a == c && strcmpZero text (a + 1) s

def exitText : List UInt8 := [0x65, 0x78, 0x69, 0x74]

/-- `fd` is the answer of `syscall_open`. -/
def processPrompt (text : Chars) (fd : Int) : Option (Prompted × Chars) := do
  let first ← strtokR text (some 0) [space] none
  -- without a token, `strcmp` reads through a null pointer
  let prog ← first.tokStart
  if strcmpZero first.text prog exitText then
    let second ← strtokR first.text none [space] first.tokenPtr
    return (.exits second.tokStart, second.text)
  let text ← strtokRest [space] (2 ^ 32) first.text first.tokenPtr
  if fd ≥ 0 then return (.spawns prog text, text) else return (.fails prog, text)

/-! ## `main` -/

namespace Shell

def boot : Shell := ⟨fun _ => 0, 0⟩

-- behind the buffer there is other data
def memory (s : Shell) (behind : Chars) : Chars := fun i => if i < bufferSize then s.buffer i else behind i

-- `none` outside of the buffer
def store (s : Shell) (i : Nat) (c : UInt8) : Option Shell :=
  if i < bufferSize then some { s with buffer := Function.update s.buffer i c } else none

/-- A character that does not end the line. -/
def key (s : Shell) (chr : UInt8) : Option Shell :=
  if chr = 0x08 then
    if s.bufferPtr > 0 then some { s with bufferPtr := s.bufferPtr - 1 } else some s
  else if isprint chr then do
    let s ← s.store s.bufferPtr chr
    return { s with bufferPtr := s.bufferPtr + 1 }
  else some s

/-- The end of the line. -/
def newline (s : Shell) (fd : Int) (behind : Chars) : Option (Shell × Option Prompted) := do
  if s.bufferPtr > 0 then
    let s ← s.store s.bufferPtr 0
    let (prompted, text) ← processPrompt (s.memory behind) fd
    return (⟨text, 0⟩, some prompted)
  else return (s, none)

end Shell

-- a line and what the system answers to it
structure Entry where
  keys : List UInt8
  noNewline : 0x0a ∉ keys
  fd : Int
  behind : Chars

def Shell.enter (s : Shell) (e : Entry) : Option (Shell × Option Prompted) := do
  let s ← e.keys.foldlM Shell.key s
  s.newline e.fd e.behind

inductive Runs : Shell → List Entry → Shell → Prop
  | start {s} : Runs s [] s
  | line {s s₁ s' e es p} (entered : s.enter e = some (s₁, p)) (stays : ∀ code, p ≠ some (.exits code)) (rest : Runs s₁ es s') :
      Runs s (e :: es) s'

/-! ## The line -/

def typeKey (line : List UInt8) (chr : UInt8) : List UInt8 :=
  if chr = 0x08 then line.dropLast else if isprint chr then line ++ [chr] else line

def lineOf (keys : List UInt8) : List UInt8 := keys.foldl typeKey []

/-- At no time is the line as long as the buffer. -/
def Entry.Fits (e : Entry) : Prop := ∀ keys, keys <+: e.keys → (lineOf keys).length < bufferSize

def words (line : List UInt8) : List (List UInt8) := (line.splitOn space).filter (· ≠ [])

def joined (words : List (List UInt8)) : List UInt8 := [space].intercalate words

-- what the buffer holds of the line
structure Shell.Shows (s : Shell) (typed : List UInt8) : Prop where
  length : s.bufferPtr = typed.length
  chars : ∀ i (inside : i < typed.length), s.buffer i = typed[i]

variable {s t : Shell} {line keys : List UInt8} {chr : UInt8}

theorem Shell.Shows.key (shows_ : s.Shows line) (short : line.length < bufferSize)
    (fits : (typeKey line chr).length < bufferSize) :
    ∃ s', s.key chr = some s' ∧ s'.Shows (typeKey line chr) := by
  have long := shows_.length
  rw [Shell.key, typeKey] at *
  split_ifs with back more printable
  · refine ⟨_, rfl, ?_, fun i inside => ?_⟩
    · rw [List.length_dropLast]
      exact congrArg (· - 1) long
    · rw [List.length_dropLast] at inside
      rw [List.getElem_dropLast]
      exact shows_.chars i (by omega)
  · have empty : line = [] := List.length_eq_zero_iff.mp (by omega)
    subst empty
    exact ⟨s, rfl, shows_⟩
  · rw [Shell.store, if_pos (by omega)]
    refine ⟨_, rfl, ?_, fun i inside => ?_⟩
    · rw [List.length_append]
      exact congrArg (· + 1) long
    · rw [List.length_append, List.length_singleton] at inside
      dsimp only
      rcases Nat.lt_or_ge i line.length with old | new
      · rw [Function.update_of_ne (by omega), List.getElem_append_left old, shows_.chars i old]
      · have last : i = s.bufferPtr := by omega
        subst last
        rw [Function.update_self, List.getElem_append_right new]
        simp [long]
  · exact ⟨s, rfl, shows_⟩

theorem Shell.Shows.typed (shows_ : s.Shows line) (fits : ∀ ks, ks <+: keys → (ks.foldl typeKey line).length < bufferSize) :
    ∃ t, keys.foldlM Shell.key s = some t ∧ t.Shows (keys.foldl typeKey line) := by
  induction keys generalizing s line with
  | nil => exact ⟨s, rfl, shows_⟩
  | cons chr keys ih =>
      have one : [chr] <+: chr :: keys := ⟨keys, rfl⟩
      obtain ⟨s₁, first, shown⟩ := shows_.key (fits [] List.nil_prefix) (fits [chr] one)
      obtain ⟨t, rest, shown⟩ := ih shown fun ks before => fits (chr :: ks) (List.cons_prefix_cons.mpr ⟨rfl, before⟩)
      refine ⟨t, ?_, shown⟩
      rw [List.foldlM_cons, first]
      exact rest

theorem printable_of_mem (keys : List UInt8) : ∀ c ∈ lineOf keys, isprint c = true := by
  induction keys using List.reverseRecOn with
  | nil => exact fun c member => nomatch member
  | append_singleton keys chr ih =>
      intro c member
      rw [lineOf, List.foldl_append] at member
      change c ∈ typeKey (lineOf keys) chr at member
      rw [typeKey] at member
      split_ifs at member with back printable
      · exact ih c ((List.dropLast_sublist _).subset member)
      · rcases List.mem_append.mp member with old | new
        · exact ih c old
        · cases List.mem_singleton.mp new
          exact printable
      · exact ih c member

theorem no_nul (keys : List UInt8) : 0 ∉ lineOf keys := fun member => absurd (printable_of_mem keys 0 member) (by decide)

/-! ## Words -/

variable {w u g rest : List UInt8} {ws : List (List UInt8)} {text : Chars} {a : Nat}

theorem words_nil : words [] = [] := rfl

theorem words_gap (gap : ∀ c ∈ g, c ∈ [space]) : words (g ++ line) = words line := by
  induction g with
  | nil => rfl
  | cons c g ih =>
      obtain rfl := List.mem_singleton.mp (gap c List.mem_cons_self)
      rw [← ih fun c member => gap c (List.mem_cons_of_mem _ member), words, words, List.cons_append,
        List.splitOn_cons_eq_if_modifyHead, if_pos (beq_self_eq_true space)]
      rfl

theorem words_of_blank (blank : ∀ c ∈ g, c ∈ [space]) : words g = [] := by
  rw [← List.append_nil g, words_gap blank, words_nil]

section
variable (nonempty : w ≠ []) (word : ∀ c ∈ w, c ∉ [space])
include nonempty word

theorem words_last : words w = [w] := by
  have single : w.splitOn space = [w] := List.splitOn_eq_singleton fun member => word _ member List.mem_cons_self
  rw [words, single, List.filter_cons_of_pos (by simpa using nonempty), List.filter_nil]

theorem words_next : words (w ++ space :: u) = w :: words u := by
  have others : ∀ c ∈ w, (c == space) = false := fun c member =>
    beq_false_of_ne fun same => word c member (same ▸ List.mem_cons_self)
  have split : (w ++ space :: u).splitOn space = w :: u.splitOn space :=
    List.splitOnP_append_cons_of_forall_mem others space (beq_self_eq_true space) u
  rw [words, split, List.filter_cons_of_pos (by simpa using nonempty)]
  rfl

theorem exists_words (gap : ∀ c ∈ g, c ∈ [space]) (stops : Stops (· ∈ [space]) rest) :
    ∃ ws, words (g ++ (w ++ rest)) = w :: ws := by
  rw [words_gap gap]
  cases rest with
  | nil => exact ⟨[], by rw [List.append_nil, words_last nonempty word]⟩
  | cons e u =>
      obtain rfl := List.mem_singleton.mp (stops e rfl)
      exact ⟨words u, words_next nonempty word⟩

end

theorem joined_cons (more : ws ≠ []) : joined (w :: ws) = w ++ space :: joined ws := by
  rw [joined, List.intercalate_cons_of_ne_nil more, List.append_assoc]
  rfl

theorem encodes_nil : Encodes text [] ↔ text 0 = 0 := by
  constructor
  · intro encodes
    exact encodes 0 (by decide)
  · intro zero j inside
    obtain rfl : j = 0 := Nat.lt_one_iff.mp inside
    exact zero

theorem encodes_cons : Encodes text (w :: ws) ↔
    (∀ i (inside : i < w.length), text i = w[i]) ∧ text w.length = 0 ∧ Encodes (fun j => text (w.length + 1 + j)) ws := by
  have bytes := encode_cons w ws
  constructor
  · intro encodes
    rw [Encodes, bytes] at encodes
    refine ⟨fun i inside => ?_, ?_, fun j inside => ?_⟩
    · rw [encodes i (by rw [List.length_append]; omega), List.getElem_append_left inside]
    · rw [encodes w.length (by simp), List.getElem_append_right le_rfl]
      simp
    · have here := encodes (w.length + 1 + j) (by rw [List.length_append, List.length_cons]; omega)
      rw [List.getElem_append_right (by omega)] at here
      refine here.trans ?_
      simp [Nat.add_assoc, Nat.add_comm 1]
  · rintro ⟨chars, zero, later⟩
    rw [Encodes, bytes]
    intro j inside
    rcases Nat.lt_trichotomy j w.length with before | rfl | behind
    · rw [chars j before, List.getElem_append_left before]
    · rw [zero, List.getElem_append_right le_rfl]
      simp
    · obtain ⟨k, rfl⟩ := Nat.exists_eq_add_of_lt behind
      rw [List.length_append, List.length_cons] at inside
      have here := later k (by omega)
      rw [List.getElem_append_right (by omega)]
      simp only [Nat.add_right_comm _ k 1] at here ⊢
      rw [here]
      simp [Nat.add_assoc, Nat.add_comm 1]

/-- A line splits well when single spaces stand between its words and nothing stands before them, and the byte behind
its terminator is zero or a space stands behind them. -/
def Splits (line : List UInt8) (next : UInt8) : Prop :=
  line = joined (words line) ∧ next = 0 ∨ line = joined (words line) ++ [space]

theorem encodes_tokenized_iff (string : StringAt text a line) (nonblank : ∃ c ∈ line, c ∉ [space]) :
    Encodes (fun j => tokenized text [space] a line.length (a + j)) (words line) ↔
      Splits line (text (a + line.length + 1)) := by
  induction long : line.length using Nat.strong_induction_on generalizing a line with
  | _ n ih =>
  subst long
  rcases exists_token [space] line with blank | ⟨g, w, rest, rfl, gap, nonempty, word, stops⟩
  · obtain ⟨c, member, other⟩ := nonblank
    exact absurd (blank c member) other
  obtain ⟨c, w', wordCons⟩ := List.exists_cons_of_ne_nil nonempty
  have cOther : c ≠ space := fun same => word c (by simp [wordCons]) (by simp [same])
  -- in front of the first word nothing is cut
  obtain ⟨ws, listed⟩ := exists_words nonempty word gap stops
  cases g with
  | cons d g =>
      obtain rfl := List.mem_singleton.mp (gap d List.mem_cons_self)
      refine iff_of_false (fun encodes => cOther ?_) fun splits => cOther ?_
      · rw [listed] at encodes
        have first := (encodes_cons.mp encodes).1 0 (List.length_pos_iff.mpr nonempty)
        have kept : tokenized text [space] a (space :: g ++ (w ++ rest)).length (a + 0) = text (a + 0) :=
          tokenized_gap string gap (by omega)
        have start : text (a + 0) = space := string.1
        rw [kept, start] at first
        rw [first]
        simp [wordCons]
      · have front : ∃ v, space :: g ++ (w ++ rest) = c :: v := by
          have head : ∃ v, joined (w :: ws) = c :: v := by
            subst wordCons
            cases ws with
            | nil => exact ⟨w', List.intercalate_singleton⟩
            | cons w₁ ws => exact ⟨_, joined_cons (List.cons_ne_nil _ _)⟩
          obtain ⟨v, head⟩ := head
          rw [Splits, listed, head] at splits
          rcases splits with ⟨same, -⟩ | same
          · exact ⟨v, same⟩
          · exact ⟨_, same⟩
        obtain ⟨v, front⟩ := front
        exact (List.cons.inj front).1.symm
  | nil =>
      rw [List.nil_append] at *
      have string' : StringAt text a ([] ++ (w ++ rest)) := string
      have here (n : Nat) : ∀ i (inside : i < w.length), tokenized text [space] a n (a + i) = w[i] := by
        intro i inside
        have kept : tokenized text [space] a n (a + i) = text (a + i) :=
          tokenized_word string' word (Nat.le_add_right _ _) (Nat.add_lt_add_left inside a)
        have bound : i < (w ++ rest).length := by rw [List.length_append]; omega
        rw [kept, string.get bound, List.getElem_append_left inside]
      cases rest with
      | nil =>
          have single : joined [w] = w := List.intercalate_singleton
          have ends : text (a + w.length) = 0 := string.drop
          rw [List.append_nil] at *
          rw [words_last nonempty word, encodes_cons, encodes_nil, tokenized_outside (.inr le_rfl),
            tokenized_outside (.inr (by omega)), Splits, words_last nonempty word, single]
          constructor
          · rintro ⟨-, -, zero⟩
            exact .inl ⟨rfl, zero⟩
          · rintro (⟨-, zero⟩ | same)
            · exact ⟨here _, ends, zero⟩
            · exact absurd (congrArg List.length same) (by simp)
      | cons e u =>
          obtain rfl := List.mem_singleton.mp (stops e rfl)
          have tail : StringAt text (a + w.length + 1) u := string.drop.2.2
          have length : (w ++ space :: u).length = w.length + 1 + u.length := by
            rw [List.length_append, List.length_cons]
            omega
          have cut : tokenized text [space] a (w ++ space :: u).length (a + w.length) = 0 :=
            tokenized_end string' nonempty word List.mem_cons_self
          have behind : (fun j => tokenized text [space] a (w ++ space :: u).length (a + (w.length + 1 + j))) =
              fun j => tokenized text [space] (a + w.length + 1) u.length (a + w.length + 1 + j) := by
            funext j
            have same : a + (w.length + 1 + j) = a + w.length + 1 + j := by omega
            rw [same]
            exact tokenized_behind string' List.mem_cons_self (by rw [List.length_nil]; omega)
          rw [words_next nonempty word, encodes_cons, behind]
          refine (and_iff_right (here _)).trans ((and_iff_right cut).trans ?_)
          rw [Splits, words_next nonempty word, length]
          by_cases blank : ∀ c ∈ u, c ∈ [space]
          · have single : joined [w] = w := List.intercalate_singleton
            rw [words_of_blank blank, encodes_nil, tokenized_outside (.inl (by omega)), single]
            cases u with
            | nil => exact iff_of_true tail (.inr rfl)
            | cons d u =>
                refine iff_of_false tail.head_ne_zero ?_
                rintro (⟨same, -⟩ | same) <;> exact absurd (congrArg List.length same) (by simp)
          · push Not at blank
            have more : words u ≠ [] := by
              rcases exists_token [space] u with none_left | ⟨g, w₁, rest, rfl, gap, nonempty₁, word₁, stops₁⟩
              · obtain ⟨c, member, other⟩ := blank
                exact absurd (none_left c member) other
              · obtain ⟨ws, listed⟩ := exists_words nonempty₁ word₁ gap stops₁
                rw [listed]
                exact List.cons_ne_nil _ _
            have again := ih u.length (by omega) tail blank rfl
            have next : a + (w.length + 1 + u.length) + 1 = a + w.length + 1 + u.length + 1 := by omega
            rw [again, Splits, joined_cons more, next, List.append_assoc, List.cons_append, List.append_cancel_left_eq,
              List.append_cancel_left_eq, List.cons_inj_right, List.cons_inj_right]

/-! ## What is passed -/

theorem strcmpZero_iff {other : List UInt8} (string : StringAt text a w) (noNul : 0 ∉ other) :
    strcmpZero text a other = true ↔ w = other := by
  induction other generalizing a w with
  | nil =>
      cases w with
      | nil => exact iff_of_true (beq_iff_eq.mpr string) rfl
      | cons c w => exact iff_of_false (fun same => string.head_ne_zero (beq_iff_eq.mp same)) (List.cons_ne_nil c w)
  | cons d other ih =>
      rw [List.mem_cons, not_or] at noNul
      rw [strcmpZero, Bool.and_eq_true, beq_iff_eq]
      cases w with
      | nil => exact iff_of_false (fun both => noNul.1 (Eq.trans (Eq.symm string) both.1)) (List.cons_ne_nil d other).symm
      | cons c w => rw [string.1, ih string.2.2 noNul.2, List.cons.injEq]

theorem processPrompt_spawns {fd : Int} (string : StringAt text 0 line) (small : line.length < 2 ^ 32)
    (nonblank : ∃ c ∈ line, c ∉ [space]) (other : (words line).head? ≠ some exitText) (opened : 0 ≤ fd) : ∃ prog, processPrompt text fd =
      some (.spawns prog (tokenized text [space] 0 line.length), tokenized text [space] 0 line.length) := by
  rcases exists_token [space] line with blank | ⟨g, w, rest, rfl, gap, nonempty, word, stops⟩
  · obtain ⟨c, member, other⟩ := nonblank
    exact absurd (blank c member) other
  obtain ⟨ws, listed⟩ := exists_words nonempty word gap stops
  obtain ⟨cut, next, call, first, all⟩ := strtokFrom_first string small gap nonempty word stops small.le
  have notExit : w ≠ exitText := fun same => other (by rw [listed, same]; rfl)
  have called : strtokR text (some 0) [space] none = _ := call
  refine ⟨0 + g.length, ?_⟩
  rw [processPrompt, called, Option.bind_eq_bind, Option.bind_some, Option.bind_eq_bind]
  dsimp only
  rw [Option.bind_some, if_neg fun same => notExit ((strcmpZero_iff first (by decide)).mp same), all]
  simp only [Option.bind_eq_bind, Option.bind_some]
  rw [if_pos opened]
  rfl

theorem Shell.Shows.newline {fd : Int} {behind : Chars} (shows_ : t.Shows line) (noNul : 0 ∉ line)
    (short : line.length < bufferSize) (nonblank : ∃ c ∈ line, c ∉ [space]) (other : (words line).head? ≠ some exitText)
    (opened : 0 ≤ fd) :
    ∃ s' prog args, t.newline fd behind = some (s', some (.spawns prog args)) ∧
      (Encodes args (words line) ↔ Splits line (t.memory behind (line.length + 1))) := by
  have positive : 0 < line.length := by
    obtain ⟨c, member, -⟩ := nonblank
    exact List.length_pos_of_mem member
  have long := shows_.length
  have stored : t.store t.bufferPtr 0 = some { t with buffer := Function.update t.buffer t.bufferPtr 0 } := if_pos (by omega)
  generalize ended : Shell.mk (Function.update t.buffer t.bufferPtr 0) t.bufferPtr = t₁ at *
  have string : StringAt (t₁.memory behind) 0 line := by
    subst ended
    refine stringAt_of_get (fun i inside => ?_) noNul ?_
    · rw [Nat.zero_add, Shell.memory, if_pos (by omega)]
      dsimp only
      rw [Function.update_of_ne (by omega), shows_.chars i inside]
    · rw [Nat.zero_add, Shell.memory, if_pos short, ← long]
      exact Function.update_self ..
  have next : t₁.memory behind (line.length + 1) = t.memory behind (line.length + 1) := by
    subst ended
    rw [Shell.memory, Shell.memory]
    dsimp only
    rw [Function.update_of_ne (by omega)]
  have small : line.length < 2 ^ 32 := short.trans (by decide)
  obtain ⟨prog, prompt⟩ := processPrompt_spawns string small nonblank other opened
  have split := encodes_tokenized_iff string nonblank
  simp only [Nat.zero_add] at split
  change Encodes (tokenized (t₁.memory behind) [space] 0 line.length) _ ↔ _ at split
  generalize tokenized (t₁.memory behind) [space] 0 line.length = args at *
  refine ⟨⟨args, 0⟩, prog, args, ?_, ?_⟩
  · rw [Shell.newline, if_pos (by omega), stored, Option.bind_eq_bind, Option.bind_some, prompt]
    rfl
  · rw [← next]
    exact split

theorem Shell.Shows.empty {s : Shell} (start : s.bufferPtr = 0) : s.Shows [] :=
  ⟨start, fun i inside => absurd inside (Nat.not_lt_zero i)⟩

theorem Shell.enter_bufferPtr {s' : Shell} {e : Entry} {p : Option Prompted} (entered : s.enter e = some (s', p)) :
    s'.bufferPtr = 0 := by
  rw [Shell.enter, Option.bind_eq_bind, Option.bind_eq_some_iff] at entered
  obtain ⟨t, -, ended⟩ := entered
  rw [Shell.newline] at ended
  split_ifs at ended with more
  · simp only [Option.bind_eq_bind, Option.bind_eq_some_iff] at ended
    obtain ⟨t₁, -, ⟨prompted, text⟩, -, same⟩ := ended
    cases same
    rfl
  · cases ended
    omega

theorem Runs.bufferPtr {s s' : Shell} {es : List Entry} (runs : Runs s es s') (start : s.bufferPtr = 0) : s'.bufferPtr = 0 := by
  induction runs with
  | start => exact start
  | line entered _ _ ih => exact ih (Shell.enter_bufferPtr entered)

theorem Shell.enter_spawns {e : Entry} (start : s.bufferPtr = 0) (fits : e.Fits) (nonblank : ∃ c ∈ lineOf e.keys, c ≠ space)
    (other : (words (lineOf e.keys)).head? ≠ some exitText) (opened : 0 ≤ e.fd) :
    ∃ t s' prog args, e.keys.foldlM Shell.key s = some t ∧ s.enter e = some (s', some (.spawns prog args)) ∧
      (Encodes args (words (lineOf e.keys)) ↔ Splits (lineOf e.keys) (t.memory e.behind ((lineOf e.keys).length + 1))) := by
  obtain ⟨t, typed, shown⟩ := (Shell.Shows.empty start).typed fits
  have blank : ∃ c ∈ lineOf e.keys, c ∉ [space] := by simpa using nonblank
  obtain ⟨s', prog, args, ended, split⟩ := shown.newline (no_nul e.keys) (fits e.keys List.prefix_rfl) blank other opened
  refine ⟨t, s', prog, args, typed, ?_, split⟩
  rw [Shell.enter, typed]
  exact ended

/-- After any lines, the words of the next one are what is passed to `syscall_spawn` exactly when it splits well. -/
theorem spawned_words_iff {es : List Entry} {e : Entry} (runs : Runs Shell.boot es s) (fits : e.Fits)
    (nonblank : ∃ c ∈ lineOf e.keys, c ≠ space) (other : (words (lineOf e.keys)).head? ≠ some exitText) (opened : 0 ≤ e.fd) :
    ∃ t s' prog args, e.keys.foldlM Shell.key s = some t ∧ s.enter e = some (s', some (.spawns prog args)) ∧
      (Encodes args (words (lineOf e.keys)) ↔ Splits (lineOf e.keys) (t.memory e.behind ((lineOf e.keys).length + 1))) :=
  Shell.enter_spawns (runs.bufferPtr rfl) fits nonblank other opened

section Letters

-- `ab c` and `ab`
def twoWords : Entry := ⟨[0x61, 0x62, 0x20, 0x63], by decide, 3, fun _ => 0⟩
def oneWord : Entry := ⟨[0x61, 0x62], by decide, 3, fun _ => 0⟩

theorem fits_of_prefixes {e : Entry} (all : ∀ keys ∈ e.keys.inits, (lineOf keys).length < bufferSize) : e.Fits :=
  fun keys before => all keys ((List.mem_inits keys e.keys).mpr before)

theorem twoWords_fits : twoWords.Fits := fits_of_prefixes (by decide)

theorem oneWord_fits : oneWord.Fits := fits_of_prefixes (by decide)

/-- `ab c` after `ab`. -/
theorem spawned_words_iff_second_line : ∃ s₁ prog₁ args₁ s prog args,
    Shell.boot.enter oneWord = some (s₁, some (.spawns prog₁ args₁)) ∧ s₁.enter twoWords = some (s, some (.spawns prog args)) ∧
      Encodes args [[0x61, 0x62], [0x63]] := by
  obtain ⟨-, s₁, prog₁, args₁, -, first, -⟩ :=
    Shell.enter_spawns (s := Shell.boot) rfl oneWord_fits ⟨0x61, by decide, by decide⟩ (by decide) (by decide)
  have runs : Runs Shell.boot [oneWord] s₁ := .line first (fun code => by simp) .start
  obtain ⟨t, s, prog, args, typed, entered, split⟩ :=
    spawned_words_iff runs twoWords_fits ⟨0x61, by decide, by decide⟩ (by decide) (by decide)
  have next : ((Shell.boot.enter oneWord).bind fun r => twoWords.keys.foldlM Shell.key r.1).map
      (fun t => t.memory twoWords.behind 5) = some 0 := by
    decide
  rw [first, Option.bind_some, typed] at next
  exact ⟨s₁, prog₁, args₁, s, prog, args, first, entered, split.mpr (.inl ⟨by decide, Option.some.inj next⟩)⟩

/-- The second word of a line comes back behind the next line. -/
theorem word_comes_back : ¬ ∀ (es : List Entry) (s : Shell) (e : Entry), Runs Shell.boot es s → e.Fits →
    (∃ c ∈ lineOf e.keys, c ≠ space) → (words (lineOf e.keys)).head? ≠ some exitText → 0 ≤ e.fd →
      ∃ s' prog args, s.enter e = some (s', some (.spawns prog args)) ∧ Encodes args (words (lineOf e.keys)) := by
  intro always
  obtain ⟨-, s, prog, args, -, entered, -⟩ :=
    Shell.enter_spawns (s := Shell.boot) rfl twoWords_fits ⟨0x61, by decide, by decide⟩ (by decide) (by decide)
  have runs : Runs Shell.boot [twoWords] s := .line entered (fun code => by simp) .start
  obtain ⟨t, s', prog, args, typed, again, split⟩ :=
    Shell.enter_spawns (Shell.enter_bufferPtr entered) oneWord_fits ⟨0x61, by decide, by decide⟩ (by decide) (by decide)
  obtain ⟨s₁, prog₁, args₁, again₁, encodes⟩ := always [twoWords] s oneWord runs oneWord_fits ⟨0x61, by decide, by decide⟩
    (by decide) (by decide)
  obtain ⟨-, same⟩ := Prod.mk.inj (Option.some.inj (again.symm.trans again₁))
  cases same
  have leftover : ((Shell.boot.enter twoWords).bind fun r => oneWord.keys.foldlM Shell.key r.1).map
      (fun t => t.memory oneWord.behind 3) = some 0x63 := by
    decide
  rw [entered, Option.bind_some, typed] at leftover
  rcases split.mp encodes with ⟨-, zero⟩ | longer
  · exact absurd ((Option.some.inj leftover).symm.trans zero) (by decide)
  · exact absurd longer (by decide)

end Letters

end Kerosene.Keroshell
