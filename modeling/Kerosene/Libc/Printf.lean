import Kerosene.Libc.Integers
import Mathlib.Data.List.TakeWhile

/-!
# `vdprintf` and `kvprintf`

A format is the list of its bytes before the terminator, and so is a string; a null pointer is `none`. Both functions go
through the format in the same way. They differ in how a piece of text is put out.
-/

namespace Kerosene.Libc

inductive Arg
  | int (n : BitVec 32)
  | str (bytes : Option (List UInt8))
  deriving DecidableEq

def nullText : List UInt8 :=
  ['('.toUInt8, 'n'.toUInt8, 'u'.toUInt8, 'l'.toUInt8, 'l'.toUInt8, ')'.toUInt8]

-- the `intlen` bytes of the buffer that `itoa` fills
def numberText (num : BitVec 32) (radix : Nat) : Option (List UInt8) := do
  let len ← intlen num radix
  let str ← itoa num radix
  return str.take len

def isDirective (d : UInt8) : Bool :=
  d = 'c'.toUInt8 || d = 's'.toUInt8 || d = 'b'.toUInt8 || d = 'd'.toUInt8 || d = 'x'.toUInt8

/-- What is printed for an argument, `none` for one of another type. -/
def argText (d : UInt8) : Arg → Option (List UInt8)
  | .int n =>
      if d = 'c'.toUInt8 then some [.ofBitVec (n.setWidth 8)]
      else if d = 'b'.toUInt8 then numberText n 2
      else if d = 'd'.toUInt8 then numberText n 10
      else if d = 'x'.toUInt8 then numberText n 16
      else none
  | .str bytes => if d = 's'.toUInt8 then some (bytes.getD nullText) else none

section
variable {τ ε : Type} (put : τ → List UInt8 → Except ε τ)

-- `none` where an argument is missing or of another type
def formatLoop : (fuel : Nat) → (format : List UInt8) → List Arg → τ → Option (Except ε τ)
  | 0, _, _, _ => none
  | _ + 1, [], _, t => some (.ok t)
  | fuel + 1, f :: format, args, t =>
      if f ≠ '%'.toUInt8 ∨ format.head? = some '%'.toUInt8 then
        -- of `%%` the second one is printed, with all up to the next `%`
        let text := if f = '%'.toUInt8 then format else f :: format
        let amount := 1 + (text.tail.takeWhile (· ≠ '%'.toUInt8)).length
        match put t (text.take amount) with
        | .error e => some (.error e)
        | .ok t => formatLoop fuel (text.drop amount) args t
      else if isDirective (format.headD 0) then
        match args.head?.bind (argText (format.headD 0)) with
        | none => none
        | some text =>
            match put t text with
            | .error e => some (.error e)
            | .ok t => formatLoop fuel format.tail args.tail t
      -- an unknown directive ends the format: the rest is printed as it stands
      else some (put t (f :: format))

end

def intMax : Nat := 2 ^ 31 - 1

section
variable {σ : Type} (write : σ → List UInt8 → Int × σ)

/-- `syscall_write` returns how many bytes were written, or a negative number. -/
def printPiece (t : Nat × σ) (data : List UInt8) : Except σ (Nat × σ) :=
  if intMax - t.1 < data.length then .error t.2
  else if (write t.2 data).1 = data.length then .ok (t.1 + data.length, (write t.2 data).2)
  else .error (write t.2 data).2

def returned : Except σ (Nat × σ) → Int × σ
  | .ok (written, s) => (written, s)
  | .error s => (-1, s)

def vdprintf (s : σ) (format : List UInt8) (args : List Arg) : Option (Int × σ) :=
  (formatLoop (printPiece write) (format.length + 1) format args (0, s)).map returned

end

section
variable {σ : Type} (printc : σ → UInt8 → σ)

-- `print` of the kernel, which does not fail
def printChars (s : σ) (data : List UInt8) : Except Empty σ := .ok (data.foldl printc s)

def kvprintf (s : σ) (format : List UInt8) (args : List Arg) : Option σ :=
  (formatLoop (printChars printc) (format.length + 1) format args s).bind Except.toOption

end

/-! ## The text -/

/-- The text of a format, byte by byte. -/
def render : (format : List UInt8) → List Arg → Option (List UInt8)
  | [], _ => some []
  | [f], _ => some [f]
  | f :: d :: format, args =>
      if f ≠ '%'.toUInt8 then (render (d :: format) args).map (f :: ·)
      else if d = '%'.toUInt8 then (render format args).map (d :: ·)
      else if isDirective d then
        (args.head?.bind (argText d)).bind fun text => (render format args.tail).map (text ++ ·)
      else some (f :: d :: format)

variable {f d : UInt8} {format text : List UInt8} {args : List Arg} {arg : Arg}

theorem render_ordinary (ordinary : f ≠ '%'.toUInt8) (format : List UInt8) (args : List Arg) :
    render (f :: format) args = (render format args).map (f :: ·) := by
  cases format with
  | nil => rfl
  | cons d format => rw [render, if_pos ordinary]

theorem render_text (plain : ∀ c ∈ text, c ≠ '%'.toUInt8) (format : List UInt8) (args : List Arg) :
    render (text ++ format) args = (render format args).map (text ++ ·) := by
  induction text with
  | nil => cases h : render format args <;> simp [h]
  | cons c text ih =>
      obtain ⟨ordinary, plain⟩ := List.forall_mem_cons.mp plain
      rw [List.cons_append, render_ordinary ordinary, ih plain, Option.map_map]
      rfl

theorem render_percent (format : List UInt8) (args : List Arg) :
    render ('%'.toUInt8 :: '%'.toUInt8 :: format) args = (render format args).map ('%'.toUInt8 :: ·) := by
  rw [render, if_neg (not_not.mpr rfl), if_pos rfl]

theorem render_directive (isDir : isDirective d = true) (format : List UInt8) (args : List Arg) :
    render ('%'.toUInt8 :: d :: format) args =
      (args.head?.bind (argText d)).bind fun text => (render format args.tail).map (text ++ ·) := by
  have other : d ≠ '%'.toUInt8 := by
    rintro rfl
    exact absurd isDir (by decide)
  rw [render, if_neg (not_not.mpr rfl), if_neg other, if_pos isDir]

/-! ## Pieces -/

theorem formatLoop_pieces {fuel : Nat} (enough : format.length < fuel) (rendered : render format args = some text) :
    ∃ pieces : List (List UInt8), pieces.flatten = text ∧
      ∀ {τ ε : Type} (put : τ → List UInt8 → Except ε τ) (t : τ), formatLoop put fuel format args t = some (pieces.foldlM put t) := by
  induction fuel generalizing format args text with
  | zero => cases enough
  | succ fuel ih =>
      cases format with
      | nil =>
          cases rendered
          exact ⟨[], rfl, fun _ _ => rfl⟩
      | cons f format =>
          by_cases plain : f ≠ '%'.toUInt8 ∨ format.head? = some '%'.toUInt8
          · -- a piece of plain text
            obtain ⟨c, rest, start, whole, fewer⟩ : ∃ c rest, (if f = '%'.toUInt8 then format else f :: format) = c :: rest ∧
                render (f :: format) args = (render rest args).map (c :: ·) ∧ rest.length ≤ format.length := by
              by_cases percent : f = '%'.toUInt8
              · subst percent
                obtain ⟨rest, rfl⟩ : ∃ rest, format = '%'.toUInt8 :: rest := by
                  cases format with
                  | nil => simp at plain
                  | cons d rest => exact ⟨rest, by simpa using plain⟩
                exact ⟨_, rest, if_pos rfl, render_percent rest args, Nat.le_succ _⟩
              · exact ⟨f, format, if_neg percent, render_ordinary percent format args, le_rfl⟩
            let run := rest.takeWhile (· ≠ '%'.toUInt8)
            have split : run ++ rest.drop run.length = rest := by
              conv_rhs => rw [← List.take_append_drop run.length rest]
              rw [← List.prefix_iff_eq_take.mp (List.takeWhile_prefix _)]
            have runPlain : ∀ b ∈ run, b ≠ '%'.toUInt8 := fun b member => by simpa using List.mem_takeWhile_imp member
            have later := render_text runPlain (rest.drop run.length) args
            rw [split] at later
            rw [whole, later, Option.map_map, Option.map_eq_some_iff] at rendered
            obtain ⟨more, rendered, rfl⟩ := rendered
            rw [List.length_cons] at enough
            obtain ⟨pieces, made, puts⟩ := ih (by rw [List.length_drop]; omega) rendered
            refine ⟨(c :: run) :: pieces, by rw [List.flatten_cons, made]; rfl, fun put t => ?_⟩
            have taken : (c :: rest).take (1 + run.length) = c :: run := by
              rw [Nat.add_comm, List.take_succ_cons]
              exact congrArg _ ((congrArg (List.take _) split.symm).trans (List.take_left' rfl))
            have dropped : (c :: rest).drop (1 + run.length) = rest.drop run.length := by
              rw [Nat.add_comm, List.drop_succ_cons]
            rw [formatLoop, if_pos plain]
            dsimp only
            rw [start, List.tail_cons, taken, dropped, List.foldlM_cons]
            cases put t (c :: run) with
            | error e => rfl
            | ok t => exact puts put t
          · obtain ⟨percent, notPercent⟩ := not_or.mp plain
            rw [not_not] at percent
            subst percent
            rw [List.length_cons] at enough
            by_cases isDir : isDirective (format.headD 0) = true
            · obtain ⟨d, format, rfl⟩ : ∃ d rest, format = d :: rest := by
                cases format with
                | nil => exact absurd isDir (by decide)
                | cons d rest => exact ⟨d, rest, rfl⟩
              rw [render_directive (show isDirective d = true from isDir)] at rendered
              obtain ⟨first, printed, rendered⟩ := Option.bind_eq_some_iff.mp rendered
              obtain ⟨more, behind, rfl⟩ := Option.map_eq_some_iff.mp rendered
              rw [List.length_cons] at enough
              obtain ⟨pieces, made, puts⟩ := ih (show format.length < fuel by omega) behind
              refine ⟨first :: pieces, by rw [List.flatten_cons, made], fun put t => ?_⟩
              rw [formatLoop, if_neg plain, if_pos isDir, List.headD_cons, printed, List.foldlM_cons]
              dsimp only
              cases put t first with
              | error e => rfl
              | ok t => exact puts put t
            · have raw : text = '%'.toUInt8 :: format := by
                cases format with
                | nil => exact (Option.some.inj rendered).symm
                | cons d format =>
                    have other : d ≠ '%'.toUInt8 := fun same => notPercent (congrArg some same)
                    rw [render, if_neg (not_not.mpr rfl), if_neg other, if_neg (show ¬ isDirective d = true from isDir)] at rendered
                    exact (Option.some.inj rendered).symm
              refine ⟨['%'.toUInt8 :: format], by rw [raw]; simp, fun put t => ?_⟩
              rw [formatLoop, if_neg plain, if_neg isDir, List.foldlM_cons]
              cases put t ('%'.toUInt8 :: format) <;> rfl

/-! ## What is written -/

variable {σ : Type} {write : σ → List UInt8 → Int × σ} {content : σ → List UInt8}

/-- `write` appends what it says it wrote, and no more than it is given. -/
structure Appends (write : σ → List UInt8 → Int × σ) (content : σ → List UInt8) : Prop where
  atMost : ∀ s data, (write s data).1 ≤ data.length
  written : ∀ s data, content (write s data).2 = content s ++ data.take (write s data).1.toNat

theorem printPieces (appends : Appends write content) (pieces : List (List UInt8)) {before : Nat} (small : before ≤ intMax) (s : σ) :
    ∃ r s' front, returned (pieces.foldlM (printPiece write) (before, s)) = (r, s') ∧ content s' = content s ++ front ∧
      front <+: pieces.flatten ∧
      (r = (before + pieces.flatten.length : Nat) ∧ front = pieces.flatten ∧ before + pieces.flatten.length ≤ intMax ∨
        r = -1 ∧ ((∀ s data, (write s data).1 = data.length) → intMax < before + pieces.flatten.length)) := by
  induction pieces generalizing before s with
  | nil => exact ⟨before, s, [], rfl, (List.append_nil _).symm, List.nil_prefix, .inl ⟨rfl, rfl, small⟩⟩
  | cons data pieces ih =>
      rw [List.flatten_cons, List.length_append, List.foldlM_cons, printPiece]
      by_cases room : intMax - before < data.length
      · rw [if_pos room]
        exact ⟨-1, s, [], rfl, (List.append_nil _).symm, List.nil_prefix, .inr ⟨rfl, fun _ => by omega⟩⟩
      · rw [if_neg room]
        have written := appends.written s data
        by_cases all : (write s data).1 = data.length
        · rw [if_pos all]
          rw [all, Int.toNat_natCast, List.take_length] at written
          obtain ⟨r, s', front, done, same, inside, outcome⟩ := ih (show before + data.length ≤ intMax by omega) (write s data).2
          refine ⟨r, s', data ++ front, done, by rw [same, written, List.append_assoc],
            (List.prefix_append_right_inj data).mpr inside, ?_⟩
          rw [Nat.add_assoc] at outcome
          exact outcome.imp (fun ⟨count, whole, fits⟩ => ⟨count, by rw [whole], fits⟩) id
        · rw [if_neg all]
          exact ⟨-1, _, _, rfl, written, (List.take_prefix _ _).trans (List.prefix_append ..),
            .inr ⟨rfl, fun complete => absurd (complete s data) all⟩⟩

/-- All of the text is written and counted, or a part of it at its front; without a short write only a text that is longer
than an `int` can count is not finished. -/
theorem vdprintf_exact (appends : Appends write content) (rendered : render format args = some text) (s : σ) :
    ∃ r s' front, vdprintf write s format args = some (r, s') ∧ content s' = content s ++ front ∧ front <+: text ∧
      (r = text.length ∧ front = text ∧ text.length ≤ intMax ∨
        r = -1 ∧ ((∀ s data, (write s data).1 = data.length) → intMax < text.length)) := by
  obtain ⟨pieces, rfl, puts⟩ := formatLoop_pieces (Nat.lt_succ_self format.length) rendered
  obtain ⟨r, s', front, done, outcome⟩ := printPieces appends pieces (Nat.zero_le intMax) s
  rw [Nat.zero_add] at outcome
  exact ⟨r, s', front, by rw [vdprintf, puts, Option.map_some, done], outcome⟩

def appendAll (s data : List UInt8) : Int × List UInt8 := (data.length, s ++ data)

theorem appendAll_appends : Appends appendAll id :=
  ⟨fun _ _ => le_rfl, fun s data => congrArg (s ++ ·) (List.take_length (l := data)).symm⟩

-- `%s` and a null pointer
theorem vdprintf_exact_null : ∃ r s' front, vdprintf appendAll [] ['%'.toUInt8, 's'.toUInt8] [.str none] = some (r, s') ∧
    s' = [] ++ front ∧ front <+: nullText ∧ (r = nullText.length ∧ front = nullText ∧ nullText.length ≤ intMax ∨
      r = -1 ∧ ((∀ s data, (appendAll s data).1 = data.length) → intMax < nullText.length)) :=
  vdprintf_exact appendAll_appends (by decide) []

theorem kvprintf_exact (printc : σ → UInt8 → σ) (rendered : render format args = some text) (s : σ) :
    kvprintf printc s format args = some (text.foldl printc s) := by
  obtain ⟨pieces, rfl, puts⟩ := formatLoop_pieces (Nat.lt_succ_self format.length) rendered
  have all : ∀ (pieces : List (List UInt8)) (s : σ), pieces.foldlM (printChars printc) s = .ok (pieces.flatten.foldl printc s) := by
    intro pieces
    induction pieces with
    | nil => exact fun _ => rfl
    | cons data pieces ih =>
        intro s
        rw [List.flatten_cons, List.foldl_append, ← ih]
        rfl
  rw [kvprintf, puts, Option.bind_some, all]
  rfl

end Kerosene.Libc
