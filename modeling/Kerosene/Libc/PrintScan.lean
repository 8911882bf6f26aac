import Kerosene.Libc.Printf

/-!
# What `vdprintf` prints is read back by `vdscanf`

A format is a list of pieces here. What a piece reads ends where the text of the later ones starts.
-/

namespace Kerosene.Libc
open Outcome

/-- A part of a format, with the argument that is printed for it. -/
inductive Piece
  | text (c : UInt8)
  | percent
  | char (n : BitVec 32)
  | str (bytes : List UInt8)
  | dec (n : BitVec 32)
  | hex (n : BitVec 32)

namespace Piece

def format : Piece → List UInt8
  | text c => [c]
  | percent => ['%'.toUInt8, '%'.toUInt8]
  | char _ => ['%'.toUInt8, 'c'.toUInt8]
  | str _ => ['%'.toUInt8, 's'.toUInt8]
  | dec _ => ['%'.toUInt8, 'd'.toUInt8]
  | hex _ => ['%'.toUInt8, 'x'.toUInt8]

def args : Piece → List Arg
  | text _ => []
  | percent => []
  | char n => [.int n]
  | str bytes => [.str (some bytes)]
  | dec n => [.int n]
  | hex n => [.int n]

def printed : Piece → List UInt8
  | text c => [c]
  | percent => ['%'.toUInt8]
  | char n => [.ofBitVec (n.setWidth 8)]
  | str bytes => bytes
  | dec n => (numberText n 10).getD []
  | hex n => (numberText n 16).getD []

-- what is read back
def values : Piece → List Value
  | text _ => []
  | percent => []
  | char n => [.char (.ofBitVec (n.setWidth 8))]
  | str bytes => [.str bytes]
  | dec n => [.int n]
  | hex n => [.unsigned n]

def blank : Piece → Bool
  | text c => isSpace c
  | _ => false

/-- The piece is read back in front of the pieces `later` and the bytes `more`. -/
def Readable (later : List Piece) (more : List UInt8) : Piece → Prop
  | text c => c ≠ '%'.toUInt8 ∧ c < 0x80 ∧
      (isSpace c → ∀ b ∈ ((later.dropWhile blank).flatMap printed ++ more).head?, isSpace b = false)
  | percent => True
  | char _ => True
  | str bytes => bytes ≠ [] ∧ (∀ b ∈ bytes, isSpace b = false) ∧ ∀ b ∈ (later.flatMap printed ++ more).head?, isSpace b = true
  | dec _ => ∀ b ∈ (later.flatMap printed ++ more).head?, isDigit b = false
  | hex _ => ∀ b ∈ (later.flatMap printed ++ more).head?, hexDigit b = none ∧ b ≠ 'x'.toUInt8 ∧ b ≠ 'X'.toUInt8

instance readableDecidable (later : List Piece) (more : List UInt8) : (piece : Piece) → Decidable (piece.Readable later more)
  | text _ => inferInstanceAs (Decidable (_ ∧ _ ∧ _))
  | percent => inferInstanceAs (Decidable True)
  | char _ => inferInstanceAs (Decidable True)
  | str _ => inferInstanceAs (Decidable (_ ∧ _ ∧ _))
  | dec _ => inferInstanceAs (Decidable (∀ _ ∈ _, _))
  | hex _ => inferInstanceAs (Decidable (∀ _ ∈ _, _))

end Piece

open Piece

def AllReadable (more : List UInt8) : List Piece → Prop
  | [] => True
  | piece :: later => piece.Readable later more ∧ AllReadable more later

instance allReadableDecidable (more : List UInt8) : (pieces : List Piece) → Decidable (AllReadable more pieces)
  | [] => inferInstanceAs (Decidable True)
  | piece :: later => @instDecidableAnd _ _ (readableDecidable later more piece) (allReadableDecidable more later)

/-! ## Printing -/

variable {pieces later : List Piece} {more rest : List UInt8} {s : ScanStream}

theorem numberText_eq {radix : Nat} (base : 1 < radix) (num : BitVec 32) :
    ∃ l, Printed radix l (magnitude num radix) ∧ numberText num radix = some (signOf num radix ++ digitText l) := by
  obtain ⟨l, printed, text, length⟩ := itoa_spec base num
  refine ⟨l, printed, ?_⟩
  rw [numberText, length, text]
  exact congrArg some (List.take_length ..)

theorem render_pieces (readable : AllReadable more pieces) :
    render (pieces.flatMap format) (pieces.flatMap args) = some (pieces.flatMap printed) := by
  induction pieces with
  | nil => rfl
  | cons piece later ih =>
      obtain ⟨first, readable⟩ := readable
      rw [List.flatMap_cons, List.flatMap_cons, List.flatMap_cons]
      cases piece with
      | text c =>
          exact (render_ordinary first.1 _ _).trans (congrArg (Option.map _) (ih readable))
      | percent =>
          exact (render_percent _ _).trans (congrArg (Option.map _) (ih readable))
      | char n =>
          refine (render_directive (by decide) _ _).trans ?_
          exact congrArg (Option.map _) (ih readable)
      | str bytes =>
          refine (render_directive (by decide) _ _).trans ?_
          exact congrArg (Option.map _) (ih readable)
      | dec n =>
          obtain ⟨l, -, text⟩ := numberText_eq (show 1 < 10 by decide) n
          refine (render_directive (by decide) _ _).trans ?_
          have argText : argText 'd'.toUInt8 (.int n) = numberText n 10 := rfl
          rw [printed, args, List.singleton_append, List.head?_cons, Option.bind_some, argText, text, List.tail_cons]
          exact congrArg (Option.map _) (ih readable)
      | hex n =>
          obtain ⟨l, -, text⟩ := numberText_eq (show 1 < 16 by decide) n
          refine (render_directive (by decide) _ _).trans ?_
          have argText : argText 'x'.toUInt8 (.int n) = numberText n 16 := rfl
          rw [printed, args, List.singleton_append, List.head?_cons, Option.bind_some, argText, text, List.tail_cons]
          exact congrArg (Option.map _) (ih readable)

/-! ## Reading -/

theorem readInput_eq (p : UInt8 → Bool) (l : List UInt8) :
    ScanStream.readInput p l = (l.takeWhile p, (l.dropWhile p).head?, (l.dropWhile p).tail) := by
  induction l with
  | nil => rfl
  | cons c l ih =>
      rw [ScanStream.readInput]
      cases meets : p c with
      | true => simp [meets, ih]
      | false => simp [meets]

theorem chars_skipSpace (s : ScanStream) : s.skipSpace.chars = s.chars.dropWhile isSpace := by
  rw [skipSpace_eq, readInput_eq]
  exact chars_mk _

-- the next character in front of the rest
theorem getc_chars {c : UInt8} (chars : s.chars = c :: rest) : ∃ s', s.getc = (some c, s') ∧ s'.chars = rest := by
  obtain ⟨ungot, input⟩ := s
  cases ungot with
  | some d =>
      cases chars
      exact ⟨_, rfl, rfl⟩
  | none =>
      cases input with
      | nil => cases chars
      | cons d input =>
          cases chars
          exact ⟨_, rfl, rfl⟩

theorem charValue_ascii {c : UInt8} (ascii : c < 0x80) : (c.toNat : Int) = charValue c := by
  have small : c.toNat < 128 := UInt8.lt_iff_toNat_lt.mp ascii
  rw [charValue]
  have : c.toInt8.toInt = c.toBitVec.toInt := rfl
  rw [this, BitVec.toInt_eq_toNat_of_lt (by change 2 * c.toNat < 2 ^ 8; omega)]
  rfl

theorem expect_reads {c : UInt8} (ascii : c < 0x80) (chars : s.chars = c :: rest) :
    ∃ s', expect c s = ⟨s', [], 0, true⟩ ∧ s'.chars = rest := by
  obtain ⟨s', read, left⟩ := getc_chars chars
  refine ⟨s', ?_, left⟩
  rw [expect, read]
  exact if_pos (charValue_ascii ascii)

theorem scanChar_reads {c : UInt8} (chars : s.chars = c :: rest) :
    ∃ s', directive 'c'.toUInt8 s = assigns s' (.char c) ∧ s'.chars = rest := by
  obtain ⟨s', read, left⟩ := getc_chars chars
  refine ⟨s', ?_, left⟩
  change scanChar s = _
  rw [scanChar, read]

theorem scanString_reads {bytes : List UInt8} (nonempty : bytes ≠ []) (solid : ∀ b ∈ bytes, isSpace b = false)
    (stop : ∀ b ∈ rest.head?, isSpace b = true) (chars : s.chars = bytes ++ rest) :
    ∃ s', directive 's'.toUInt8 s = assigns s' (.str bytes) ∧ s'.chars = rest := by
  obtain ⟨c, bytes, rfl⟩ := List.exists_cons_of_ne_nil nonempty
  refine ⟨⟨rest.head?, rest.tail⟩, ?_, chars_mk rest⟩
  change scanString s.skipSpace = _
  rw [skipSpace_chars chars (solid c List.mem_cons_self), scanString, readWhile_eq]
  have all : ∀ b ∈ c :: bytes, (!isSpace b) = true := fun b member => by rw [solid b member]; rfl
  have ends : ∀ b ∈ rest.head?, (!isSpace b) = false := fun b member => by rw [stop b member]; rfl
  have read := readInput_append all ends
  rw [List.cons_append] at read
  change (if _ then _ else _) = _
  rw [show (ScanStream.mk (some c) (bytes.append rest)).chars = c :: (bytes ++ rest) from rfl, read]
  exact if_neg (by simp)

/-! ## The round trip -/

theorem exists_blank {piece : Piece} (isBlank : piece.blank = true) : ∃ c, piece = text c ∧ isSpace c = true := by
  cases piece with
  | text c => exact ⟨c, rfl, isBlank⟩
  | percent => cases isBlank
  | char n => cases isBlank
  | str bytes => cases isBlank
  | dec n => cases isBlank
  | hex n => cases isBlank

theorem dropWhile_eq_self {l : List UInt8} (solid : ∀ b ∈ l.head?, isSpace b = false) : l.dropWhile isSpace = l := by
  cases l with
  | nil => rfl
  | cons b l => exact List.dropWhile_cons_of_neg (by simp [solid b rfl])

theorem dropWhile_printed (solid : ∀ b ∈ ((pieces.dropWhile blank).flatMap printed ++ more).head?, isSpace b = false) :
    (pieces.flatMap printed ++ more).dropWhile isSpace = (pieces.dropWhile blank).flatMap printed ++ more := by
  induction pieces with
  | nil => exact dropWhile_eq_self solid
  | cons piece later ih =>
      by_cases isBlank : piece.blank = true
      · rw [List.dropWhile_cons_of_pos isBlank] at solid ⊢
        obtain ⟨c, rfl, space⟩ := exists_blank isBlank
        rw [← ih solid]
        exact List.dropWhile_cons_of_pos space
      · rw [List.dropWhile_cons_of_neg isBlank] at solid ⊢
        exact dropWhile_eq_self solid

theorem piece_reads {piece : Piece} (notBlank : ¬ piece.blank = true) (readable : piece.Readable later more)
    (chars : s.chars = piece.printed ++ (later.flatMap printed ++ more)) :
    ∃ s', s'.chars = later.flatMap printed ++ more ∧
      ∀ g, scan (piece.format ++ g) s = (Outcome.mk s' piece.values piece.values.length true).andThen (scan g) := by
  cases piece with
  | text c =>
      obtain ⟨s', done, left⟩ := expect_reads readable.2.1 chars
      exact ⟨s', left, fun g => (scan_ordinary notBlank readable.1).trans (congrArg (andThen · (scan g)) done)⟩
  | percent =>
      obtain ⟨s', done, left⟩ := expect_reads (c := '%'.toUInt8) (by decide) chars
      exact ⟨s', left, fun g => scan_percent.trans (congrArg (andThen · (scan g)) done)⟩
  | char n =>
      obtain ⟨s', done, left⟩ := scanChar_reads chars
      exact ⟨s', left, fun g => scan_percent.trans (congrArg (andThen · (scan g)) done)⟩
  | str bytes =>
      obtain ⟨nonempty, solid, stop⟩ := readable
      obtain ⟨s', done, left⟩ := scanString_reads nonempty solid stop chars
      exact ⟨s', left, fun g => scan_percent.trans (congrArg (andThen · (scan g)) done)⟩
  | dec n =>
      obtain ⟨l, isPrinted, text⟩ := numberText_eq (show 1 < 10 by decide) n
      rw [printed, text, Option.getD_some] at chars
      obtain ⟨s', done, left⟩ := scanInt_reads isPrinted readable chars
      exact ⟨s', left, fun g => scan_percent.trans (congrArg (andThen · (scan g)) done)⟩
  | hex n =>
      obtain ⟨l, isPrinted, text⟩ := numberText_eq (show 1 < 16 by decide) n
      have sign : ¬ hasSign n 16 = true := by simp [hasSign]
      rw [magnitude, if_neg sign] at isPrinted
      rw [signOf, if_neg sign, List.nil_append] at text
      rw [printed, text, Option.getD_some] at chars
      obtain ⟨s', done, left⟩ := scanHex_reads isPrinted readable chars
      rw [BitVec.ofNat_toNat, BitVec.setWidth_eq] at done
      exact ⟨s', left, fun g => scan_percent.trans (congrArg (andThen · (scan g)) done)⟩

-- behind white space of the format the stream stands at the first piece that is not blank
theorem scan_pieces (readable : AllReadable more pieces)
    (chars : s.chars = pieces.flatMap printed ++ more ∨ s.chars = (pieces.dropWhile blank).flatMap printed ++ more ∧
      ∀ b ∈ ((pieces.dropWhile blank).flatMap printed ++ more).head?, isSpace b = false) :
    ∃ s', scan (pieces.flatMap format) s = ⟨s', pieces.flatMap Piece.values, (pieces.flatMap Piece.values).length, true⟩ ∧
      s'.chars = more := by
  induction pieces generalizing s with
  | nil => exact ⟨s, rfl, chars.elim id And.left⟩
  | cons piece later ih =>
      obtain ⟨first, readable⟩ := readable
      by_cases isBlank : piece.blank = true
      · obtain ⟨c, rfl, space⟩ := exists_blank isBlank
        have solid := first.2.2 space
        have skipped : s.skipSpace.chars = (later.dropWhile blank).flatMap printed ++ more := by
          rw [chars_skipSpace]
          rcases chars with whole | ⟨ahead, -⟩
          · rw [whole, ← dropWhile_printed solid]
            exact List.dropWhile_cons_of_pos space
          · rw [ahead, List.dropWhile_cons_of_pos isBlank]
            exact dropWhile_eq_self solid
        obtain ⟨s', done, left⟩ := ih readable (.inr ⟨skipped, solid⟩)
        exact ⟨s', (scan_space space).trans done, left⟩
      · have here : s.chars = piece.printed ++ (later.flatMap printed ++ more) := by
          rcases chars with whole | ⟨ahead, -⟩
          · rw [whole, List.flatMap_cons, List.append_assoc]
          · rw [ahead, List.dropWhile_cons_of_neg isBlank, List.flatMap_cons, List.append_assoc]
        obtain ⟨s₁, left, reads⟩ := piece_reads isBlank first here
        obtain ⟨s', done, left'⟩ := ih readable (.inl left)
        refine ⟨s', ?_, left'⟩
        rw [List.flatMap_cons, List.flatMap_cons, reads, andThen, if_pos rfl, done, List.length_append]

/-- A text that `vdprintf` prints with a format is read back by `vdscanf` with the same format, value by value, from a place
where `more` follows; at most the first byte of that is lost. -/
theorem print_scan_round_trip {σ : Type} {write : σ → List UInt8 → Int × σ} {content : σ → List UInt8} (appends : Appends write content)
    (complete : ∀ s data, (write s data).1 = data.length) (readable : AllReadable more pieces)
    (small : (pieces.flatMap printed).length ≤ intMax) (s : σ) :
    ∃ s' text, vdprintf write s (pieces.flatMap format) (pieces.flatMap args) = some (text.length, s') ∧ content s' = content s ++ text ∧
      (vdscanf (text ++ more) (pieces.flatMap format)).values = pieces.flatMap Piece.values ∧
      (vdscanf (text ++ more) (pieces.flatMap format)).assigned = (pieces.flatMap args).length ∧
      ((vdscanf (text ++ more) (pieces.flatMap format)).input = more ∨
        (vdscanf (text ++ more) (pieces.flatMap format)).input = more.tail) := by
  obtain ⟨r, s', front, done, written, -, outcome⟩ := vdprintf_exact appends (render_pieces readable) s
  obtain ⟨rfl, rfl, -⟩ := outcome.resolve_right fun ⟨_, long⟩ => absurd (long complete) (not_lt.mpr small)
  obtain ⟨t, scanned, left⟩ := scan_pieces readable (s := ⟨none, pieces.flatMap printed ++ more⟩) (.inl rfl)
  have counts : (pieces.flatMap Piece.values).length = (pieces.flatMap args).length := by
    rw [List.length_flatMap, List.length_flatMap]
    refine congrArg List.sum (List.map_congr_left fun piece _ => ?_)
    cases piece <;> rfl
  refine ⟨s', _, done, written, ?_, ?_, ?_⟩
  · rw [vdscanf, scanned]
  · rw [vdscanf, scanned, ← counts]
  · rw [vdscanf, scanned]
    obtain ⟨ungot, input⟩ := t
    cases ungot with
    | none => exact .inl left
    | some c => exact .inr (by rw [← left]; rfl)

-- `%d, %s` and a new line
def pair : List Piece := [dec (-7), text ','.toUInt8, text ' '.toUInt8, str ['a'.toUInt8, 'b'.toUInt8], text '\n'.toUInt8]

theorem print_scan_round_trip_pair : ∃ s' text,
    vdprintf appendAll [] (pair.flatMap format) (pair.flatMap args) = some (text.length, s') ∧ s' = [] ++ text ∧
      (vdscanf (text ++ []) (pair.flatMap format)).values = [.int (-7), .str ['a'.toUInt8, 'b'.toUInt8]] ∧
      (vdscanf (text ++ []) (pair.flatMap format)).assigned = 2 ∧
      ((vdscanf (text ++ []) (pair.flatMap format)).input = [] ∨ (vdscanf (text ++ []) (pair.flatMap format)).input = [].tail) :=
  print_scan_round_trip appendAll_appends (fun _ _ => rfl) (by decide +kernel) (by decide +kernel) []

end Kerosene.Libc
