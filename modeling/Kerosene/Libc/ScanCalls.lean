import Kerosene.Libc.Scanf

/-!
# One call of `vdscanf` and two

Every directive that reads up to a character it does not want puts this character back. The next
directive of the same format finds it there; the next call does not.
-/

namespace Kerosene.Libc
open Outcome

variable {f g format input : List UInt8} {s : ScanStream} {r : Outcome} {c d : UInt8} {b : Bool}

namespace Outcome

theorem andThen_matched {next : ScanStream → Outcome} (matched : (r.andThen next).matched = true) :
    r.matched = true ∧ (next r.stream).matched = true := by
  rw [andThen] at matched
  split_ifs at matched with first
  · exact ⟨first, matched⟩
  · exact absurd matched first

theorem andThen_stream {next : ScanStream → Outcome} (matched : (r.andThen next).matched = true) :
    (r.andThen next).stream = (next r.stream).stream := by
  rw [andThen, if_pos (andThen_matched matched).1]

theorem andThen_andThen {next last : ScanStream → Outcome} :
    (r.andThen next).andThen last = r.andThen fun s => (next s).andThen last := by
  cases first : r.matched with
  | false => simp [andThen, first]
  | true =>
      cases second : (next r.stream).matched with
      | false => simp [andThen, first, second]
      | true => simp [andThen, first, second, List.append_assoc, Nat.add_assoc]

theorem andThen_congr {next next' : ScanStream → Outcome} (same : r.matched = true → next r.stream = next' r.stream) :
    r.andThen next = r.andThen next' := by
  rw [andThen, andThen]
  split_ifs with matched
  · rw [same matched]
  · rfl

end Outcome

/-! ## Along a format -/

theorem scan_space (space : isSpace c = true) : scan (c :: format) s = scan format s.skipSpace := by
  cases format <;> exact if_pos space

theorem scan_ordinary (noSpace : ¬ isSpace c = true) (ordinary : c ≠ '%'.toUInt8) :
    scan (c :: format) s = (expect c s).andThen (scan format) := by
  cases format <;> exact (if_neg noSpace).trans (if_pos ordinary)

theorem scan_percent : scan ('%'.toUInt8 :: d :: format) s = (directive d s).andThen (scan format) :=
  (if_neg (by decide)).trans (if_neg (by decide))

theorem scan_lone_percent : scan ['%'.toUInt8] s = breaks s :=
  (if_neg (by decide)).trans (if_neg (by decide))

theorem format_induction {motive : List UInt8 → Prop} (nil : motive [])
    (space : ∀ c format, isSpace c = true → motive format → motive (c :: format))
    (ordinary : ∀ c format, ¬ isSpace c = true → c ≠ '%'.toUInt8 → motive format → motive (c :: format))
    (percent : motive ['%'.toUInt8]) (directive : ∀ d format, motive format → motive ('%'.toUInt8 :: d :: format)) :
    ∀ format, motive format
  | [] => nil
  | [c] => by
      by_cases isSpace' : isSpace c = true
      · exact space c [] isSpace' nil
      · by_cases isPercent : c = '%'.toUInt8
        · rw [isPercent]
          exact percent
        · exact ordinary c [] isSpace' isPercent nil
  | c :: d :: format => by
      by_cases isSpace' : isSpace c = true
      · exact space c _ isSpace' (format_induction nil space ordinary percent directive (d :: format))
      · by_cases isPercent : c = '%'.toUInt8
        · rw [isPercent]
          exact directive d format (format_induction nil space ordinary percent directive format)
        · exact ordinary c _ isSpace' isPercent (format_induction nil space ordinary percent directive (d :: format))

theorem scan_append (matched : (scan f s).matched = true) : scan (f ++ g) s = (scan f s).andThen (scan g) := by
  induction f using format_induction generalizing s with
  | nil => simp [scan, andThen]
  | space c format space ih =>
      rw [scan_space space] at matched ⊢
      rw [List.cons_append, scan_space space, ih matched]
  | ordinary c format noSpace ordinary ih =>
      rw [scan_ordinary noSpace ordinary] at matched ⊢
      rw [List.cons_append, scan_ordinary noSpace ordinary, andThen_andThen]
      exact andThen_congr fun _ => ih (andThen_matched matched).2
  | percent =>
      rw [scan_lone_percent] at matched
      cases matched
  | directive d format ih =>
      rw [scan_percent] at matched ⊢
      rw [List.cons_append, List.cons_append, scan_percent, andThen_andThen]
      exact andThen_congr fun _ => ih (andThen_matched matched).2

/-! ## What is put back -/

-- whether the last directive, if any, reads a character it does not want
def looksAhead : (last : Bool) → List UInt8 → Bool
  | last, [] => last
  | _, c :: format =>
      if isSpace c then looksAhead true format
      else if c ≠ '%'.toUInt8 then looksAhead false format
      else
        match format with
        | [] => false
        | d :: format => looksAhead (d = 's'.toUInt8 || d = 'd'.toUInt8 || d = 'x'.toUInt8) format

theorem looksAhead_space (space : isSpace c = true) : looksAhead b (c :: format) = looksAhead true format := by
  cases format <;> exact if_pos space

theorem looksAhead_ordinary (noSpace : ¬ isSpace c = true) (ordinary : c ≠ '%'.toUInt8) :
    looksAhead b (c :: format) = looksAhead false format := by
  cases format <;> exact (if_neg noSpace).trans (if_pos ordinary)

theorem looksAhead_percent : looksAhead b ('%'.toUInt8 :: d :: format) =
    looksAhead (d = 's'.toUInt8 || d = 'd'.toUInt8 || d = 'x'.toUInt8) format :=
  (if_neg (by decide)).trans (if_neg (by decide))

/-- Where nothing is put back, no directive looked ahead, or the one that did met the end of the input. -/
def Settled (b : Bool) (s : ScanStream) : Prop := if b then s.ungotChar = none → s.input = [] else s.ungotChar = none

theorem getc_ungotChar (s : ScanStream) : s.getc.2.ungotChar = none := by
  obtain ⟨ungot, input⟩ := s
  cases ungot with
  | some c => rfl
  | none => cases input <;> rfl

theorem readInput_stop {p : UInt8 → Bool} (ends : (ScanStream.readInput p input).2.1 = none) :
    (ScanStream.readInput p input).2.2 = [] := by
  induction input with
  | nil => rfl
  | cons c input ih =>
      rw [ScanStream.readInput] at ends ⊢
      split_ifs at ends ⊢
      · exact ih ends

theorem readWhile_stop {p : UInt8 → Bool} (ends : (s.readWhile p).2.1 = none) : (s.readWhile p).2.2.input = [] := by
  obtain ⟨ungot, input⟩ := s
  rcases ungot with _ | c
  · cases input with
    | nil => rfl
    | cons c input =>
        simp only [ScanStream.readWhile, ScanStream.getc] at ends ⊢
        split_ifs at ends ⊢
        exact readInput_stop ends
  · simp only [ScanStream.readWhile, ScanStream.getc] at ends ⊢
    split_ifs at ends ⊢
    exact readInput_stop ends

theorem settled_readWhile (p : UInt8 → Bool) (s : ScanStream) :
    Settled true ((s.readWhile p).2.2.ungetc (s.readWhile p).2.1) :=
  fun ends => readWhile_stop ends

theorem settled_expect (matched : (expect c s).matched = true) : Settled false (expect c s).stream := by
  have cleared := getc_ungotChar s
  rw [expect] at matched ⊢
  rcases read : s.getc with ⟨_ | d, s'⟩
  all_goals
    rw [read] at matched cleared
    dsimp only at matched ⊢
    split_ifs at matched ⊢
    · exact cleared
    · cases matched

theorem settled_scanChar (matched : (scanChar s).matched = true) : Settled false (scanChar s).stream := by
  have cleared := getc_ungotChar s
  rw [scanChar] at matched ⊢
  rcases read : s.getc with ⟨_ | d, s'⟩
  · rw [read] at matched
    cases matched
  · rw [read] at cleared
    exact cleared

theorem settled_scanString (matched : (scanString s).matched = true) : Settled true (scanString s).stream := by
  have settled := settled_readWhile (fun c => !isSpace c) s
  rw [scanString] at matched ⊢
  dsimp only at matched ⊢
  split_ifs at matched ⊢
  exact settled

theorem settled_scanDigits {c : Option UInt8} {neg : Bool} (matched : (scanDigits c neg s).matched = true) :
    Settled true (scanDigits c neg s).stream := by
  rcases c with _ | c
  · cases matched
  · rw [scanDigits] at matched ⊢
    by_cases digit : isDigit c
    · rw [if_pos digit]
      exact settled_readWhile isDigit s
    · rw [if_neg digit] at matched
      cases matched

theorem settled_scanInt (matched : (scanInt s).matched = true) : Settled true (scanInt s).stream := by
  rw [scanInt] at matched ⊢
  rcases read : s.getc with ⟨_ | d, s'⟩
  · rw [read] at matched
    cases matched
  · rw [read] at matched
    dsimp only at matched ⊢
    split_ifs at matched ⊢
    · exact settled_scanDigits matched
    · exact settled_scanDigits matched
    · exact settled_scanDigits matched

theorem settled_scanHexDigits {c : Option UInt8} (matched : (scanHexDigits c s).matched = true) :
    Settled true (scanHexDigits c s).stream := by
  rcases c with _ | c
  · cases matched
  · rw [scanHexDigits] at matched ⊢
    split_ifs at matched ⊢
    · exact settled_readWhile (fun c => (hexDigit c).isSome) s
    · cases matched

theorem settled_scanHex (matched : (scanHex s).matched = true) : Settled true (scanHex s).stream := by
  rw [scanHex] at matched ⊢
  rcases read : s.getc with ⟨_ | d, s'⟩
  · rw [read] at matched
    cases matched
  · rw [read] at matched
    dsimp only at matched ⊢
    split_ifs at matched ⊢
    · exact settled_scanHexDigits matched
    · exact settled_scanHexDigits matched
    · exact settled_scanHexDigits matched

theorem settled_directive (matched : (directive d s).matched = true) :
    Settled (d = 's'.toUInt8 || d = 'd'.toUInt8 || d = 'x'.toUInt8) (directive d s).stream := by
  rw [directive] at matched ⊢
  split_ifs at matched ⊢ with isPercent isChar isString isInt isHex
  · rw [isPercent] at matched ⊢
    exact settled_expect matched
  · rw [isChar]
    exact settled_scanChar matched
  · rw [isString]
    exact settled_scanString matched
  · rw [isInt]
    exact settled_scanInt matched
  · rw [isHex]
    exact settled_scanHex matched
  · cases matched

theorem settled_scan (matched : (scan f s).matched = true) (settled : Settled b s) :
    Settled (looksAhead b f) (scan f s).stream := by
  induction f using format_induction generalizing s b with
  | nil => exact settled
  | space c format space ih =>
      rw [scan_space space] at matched ⊢
      rw [looksAhead_space space]
      exact ih matched (settled_readWhile isSpace s)
  | ordinary c format noSpace ordinary ih =>
      rw [scan_ordinary noSpace ordinary] at matched ⊢
      rw [looksAhead_ordinary noSpace ordinary, andThen_stream matched]
      exact ih (andThen_matched matched).2 (settled_expect (andThen_matched matched).1)
  | percent =>
      rw [scan_lone_percent] at matched
      cases matched
  | directive d format ih =>
      rw [scan_percent] at matched ⊢
      rw [looksAhead_percent, andThen_stream matched]
      exact ih (andThen_matched matched).2 (settled_directive (andThen_matched matched).1)

/-! ## Two calls -/

/-- `f` and then `g` in a call each, and both in one call. -/
def Composes (input f g : List UInt8) : Prop :=
  let first := vdscanf input f
  let second := vdscanf first.input g
  let whole := vdscanf input (f ++ g)
  whole.values = first.values ++ second.values ∧ whole.input = second.input

/-- What `f` leaves of the input, with the character it put back. -/
def leftover (input f : List UInt8) : List UInt8 := (scan f ⟨none, input⟩).stream.chars

theorem ungotChar_eq_none_iff (matched : (scan f ⟨none, input⟩).matched = true) :
    (scan f ⟨none, input⟩).stream.ungotChar = none ↔ looksAhead false f = false ∨ leftover input f = [] := by
  have settled := settled_scan (b := false) matched rfl
  rw [leftover, ScanStream.chars]
  cases ahead : looksAhead false f with
  | false =>
      rw [ahead] at settled
      exact ⟨fun _ => .inl rfl, fun _ => settled⟩
  | true =>
      rw [ahead] at settled
      constructor
      · intro none
        exact .inr (by rw [none, settled none]; rfl)
      · rintro (wrong | empty)
        · cases wrong
        · exact Option.toList_eq_nil_iff.mp (List.append_eq_nil_iff.mp empty).1

theorem composes_of_nothing_put_back (matched : (scan f ⟨none, input⟩).matched = true)
    (none : (scan f ⟨none, input⟩).stream.ungotChar = none) : Composes input f g := by
  simp only [Composes, vdscanf, scan_append matched, andThen, matched, if_true]
  generalize (scan f ⟨.none, input⟩).stream = s at none
  obtain ⟨ungot, rest⟩ := s
  cases none
  exact ⟨rfl, rfl⟩

/-- Where all of `f` matches, the two calls agree with the one call for every `g` if and only if the last
directive of `f` does not look ahead, or it does so at the end of the input. -/
theorem composes_iff (matched : (scan f ⟨none, input⟩).matched = true) :
    (∀ g, Composes input f g) ↔ looksAhead false f = false ∨ leftover input f = [] := by
  rw [← ungotChar_eq_none_iff matched]
  refine ⟨fun always => ?_, fun none g => composes_of_nothing_put_back matched none⟩
  by_contra putBack
  obtain ⟨c, putBack⟩ := Option.ne_none_iff_exists'.mp putBack
  -- the second call reads another character
  have read := always ['%'.toUInt8, 'c'.toUInt8]
  simp only [Composes, vdscanf, scan_append matched, andThen, matched, if_true] at read
  generalize (scan f ⟨none, input⟩).stream = s at read putBack
  obtain ⟨ungot, rest⟩ := s
  cases putBack
  have whole : scan ['%'.toUInt8, 'c'.toUInt8] ⟨some c, rest⟩ = ⟨⟨none, rest⟩, [.char c], 1, true⟩ := rfl
  rw [whole] at read
  cases rest with
  | nil =>
      have second : scan ['%'.toUInt8, 'c'.toUInt8] ⟨none, []⟩ = breaks ⟨none, []⟩ := rfl
      rw [second] at read
      exact absurd (congrArg List.length read.1) (by simp [breaks])
  | cons d rest =>
      have second : scan ['%'.toUInt8, 'c'.toUInt8] ⟨none, d :: rest⟩ = ⟨⟨none, rest⟩, [.char d], 1, true⟩ := rfl
      rw [second] at read
      exact absurd (congrArg List.length read.2) (by simp)

theorem composes_iff_char : Composes ['1'.toUInt8, 'a'.toUInt8] ['%'.toUInt8, 'c'.toUInt8] ['%'.toUInt8, 'c'.toUInt8] :=
  (composes_iff (by decide)).mpr (.inl (by decide)) _

/-- The `a` that ends the number is lost between the calls. -/
theorem look_ahead_lost :
    ¬ ∀ input f g : List UInt8, (scan f ⟨none, input⟩).matched = true → Composes input f g := by
  intro always
  have wrong := always ['1'.toUInt8, 'a'.toUInt8] ['%'.toUInt8, 'd'.toUInt8] ['%'.toUInt8, 'c'.toUInt8] (by decide)
  exact absurd wrong.1 (by decide)

/-! ## White space between two calls -/

theorem skipSpace_eq (s : ScanStream) : s.skipSpace =
    ⟨(ScanStream.readInput isSpace s.chars).2.1, (ScanStream.readInput isSpace s.chars).2.2⟩ := by
  obtain ⟨ungot, input⟩ := s
  rcases ungot with _ | c
  · cases input with
    | nil => rfl
    | cons c input =>
        by_cases space : isSpace c = true <;>
          simp [ScanStream.skipSpace, ScanStream.readWhile, ScanStream.getc, ScanStream.readInput, ScanStream.chars,
            ScanStream.ungetc, space]
  · by_cases space : isSpace c = true <;>
      simp [ScanStream.skipSpace, ScanStream.readWhile, ScanStream.getc, ScanStream.readInput, ScanStream.chars,
        ScanStream.ungetc, space]

theorem skipSpace_put_back {i : List UInt8} (space : isSpace c = true) :
    (ScanStream.mk (some c) i).skipSpace = (ScanStream.mk none i).skipSpace := by
  rw [skipSpace_eq, skipSpace_eq]
  simp [ScanStream.chars, ScanStream.readInput, space]

-- the first directive, if any, skips white space
inductive SkipsSpace : List UInt8 → Prop
  | nil : SkipsSpace []
  | space (c : UInt8) (format : List UInt8) (isSpace : isSpace c = true) : SkipsSpace (c :: format)
  | directive (d : UInt8) (format : List UInt8) (skips : d ∈ ['s'.toUInt8, 'd'.toUInt8, 'x'.toUInt8]) :
      SkipsSpace ('%'.toUInt8 :: d :: format)

/-- White space that ends a directive of `f` may be lost where `g` begins by skipping white space. -/
theorem composes_of_space (matched : (scan f ⟨none, input⟩).matched = true)
    (putBack : (scan f ⟨none, input⟩).stream.ungotChar = some c) (space : isSpace c = true) (skips : SkipsSpace g) :
    Composes input f g := by
  simp only [Composes, vdscanf, scan_append matched, andThen, matched, if_true]
  generalize (scan f ⟨none, input⟩).stream = s at putBack
  obtain ⟨ungot, rest⟩ := s
  cases putBack
  cases skips with
  | nil => exact ⟨rfl, rfl⟩
  | space e format isSpace =>
      rw [scan_space isSpace, scan_space isSpace, skipSpace_put_back space]
      exact ⟨rfl, rfl⟩
  | directive d format skips =>
      have same : directive d ⟨some c, rest⟩ = directive d ⟨none, rest⟩ := by
        have skipped := skipSpace_put_back (i := rest) space
        simp only [List.mem_cons, List.not_mem_nil, or_false] at skips
        rcases skips with rfl | rfl | rfl
        · exact congrArg scanString skipped
        · exact congrArg scanInt skipped
        · exact congrArg scanHex skipped
      rw [scan_percent, scan_percent, same]
      exact ⟨rfl, rfl⟩

end Kerosene.Libc
