import Kerosene.Video.Console

/-!
# The pixels of the console

What the loops over the pixels of a cell, the bits of a glyph and the bytes of the rows leave on the screen.
-/

namespace Kerosene.Video
open Lib Framebuffer
namespace Screen
variable {s s₁ s₂ : Screen} {A B : Set (Nat × Nat)} {ink : Nat × Nat → Int} {color : Int}

theorem getPixel_plot {x y : Nat} (on : s.OnScreen x y) (color : Int) (a b : Nat) :
    (s.plot x y color).getPixel a b = if a = x ∧ b = y then s.shown color else s.getPixel a b := by
  have width := s.width
  have height := s.height
  obtain ⟨left, above⟩ := on
  have paints := plot_paints s (x := x) (y := y) ⟨by omega, by omega⟩ ⟨by omega, by omega⟩ color
  split_ifs with here
  · obtain ⟨rfl, rfl⟩ := here
    exact paints.inside _ _ ⟨left, above⟩ rfl
  · refine paints.outside a b fun member => here ?_
    rw [Set.mem_singleton_iff, Prod.mk.injEq] at member
    omega

theorem plot_size (s : Screen) (x y color : Int) : s.plot x y color = s.withMemory (s.plot x y color).framebuffer := by
  rw [plot, plotPixel_eq]
  split_ifs <;> rfl

theorem shown_shown (s : Screen) (color : Int) : s.shown (s.shown color) = s.shown color := by
  have small : unsigned color % 256 ^ s.pixelSize < 2 ^ 32 := by
    have word : unsigned color < 2 ^ 32 := by
      rw [unsigned]
      omega
    exact (Nat.mod_le _ _).trans_lt word
  have same {v : Nat} (small : v < 2 ^ 32) : unsigned (int v) = v := by
    rw [unsigned, int, Int.bmod_def]
    split_ifs <;> omega
  rw [shown, shown, same small, Nat.mod_mod]

theorem shown_zero (s : Screen) : s.shown 0 = 0 := by
  have zero : unsigned 0 = 0 := rfl
  rw [shown, zero, Nat.zero_mod]
  exact int_eq ⟨by decide, by decide⟩

/-- The points of the region show their ink, the others what they did. -/
structure Inks (s s' : Screen) (region : Set (Nat × Nat)) (ink : Nat × Nat → Int) : Prop where
  size : s' = s.withMemory s'.framebuffer
  inside : ∀ p ∈ region, s.OnScreen p.1 p.2 → s'.getPixel p.1 p.2 = s.shown (ink p)
  outside : ∀ p ∉ region, s'.getPixel p.1 p.2 = s.getPixel p.1 p.2

theorem Inks.refl (s : Screen) (ink : Nat × Nat → Int) : s.Inks s ∅ ink :=
  ⟨rfl, fun _ member => absurd member (Set.notMem_empty _), fun _ _ => rfl⟩

theorem Inks.trans (first : s.Inks s₁ A ink) (second : s₁.Inks s₂ B ink) : s.Inks s₂ (A ∪ B) ink := by
  obtain ⟨size, inside, outside⟩ := first
  generalize s₁.framebuffer = m at size
  subst size
  refine ⟨second.size, fun p member on => ?_, fun p other => ?_⟩
  · by_cases again : p ∈ B
    · exact second.inside p again on
    · rw [second.outside p again]
      exact inside p (member.resolve_right again) on
  · rw [Set.mem_union, not_or] at other
    rw [second.outside p other.2, outside p other.1]

theorem Inks.congr (inks : s.Inks s₁ A ink) (same : A = B) : s.Inks s₁ B ink := same ▸ inks

theorem plot_inks {x y : Nat} (on : s.OnScreen x y) (same : ink (x, y) = color) : s.Inks (s.plot x y color) {(x, y)} ink := by
  refine ⟨plot_size .., fun p member _ => ?_, fun p other => ?_⟩
  · rw [Set.mem_singleton_iff.mp member, getPixel_plot on, if_pos ⟨rfl, rfl⟩, same]
  · rw [getPixel_plot on, if_neg fun here => other (Prod.ext here.1 here.2)]

end Screen

namespace Font
variable {font : Font} {p pos o : Nat × Nat}

-- the character cell that a pixel lies in, and where in it
def cell (font : Font) (p : Nat × Nat) : Nat × Nat := (p.1 / font.width, p.2 / font.height)

def offset (font : Font) (p : Nat × Nat) : Nat × Nat := (p.1 % font.width, p.2 % font.height)

def pixel (font : Font) (pos o : Nat × Nat) : Nat × Nat := (o.1 + pos.1 * font.width, o.2 + pos.2 * font.height)

def perLine (font : Font) : Nat := (font.width + 7) / 8

def bit (font : Font) (chr : UInt8) (o : Nat × Nat) : Bool :=
  (font.glyph chr (o.2 * font.perLine + o.1 / 8)).toNat.testBit (7 - o.1 % 8)

/-- The colour of a pixel of a cell. -/
def ink (font : Font) : Shown → Nat × Nat → Int
  | .glyph chr fg bg, o => if font.bit chr o then fg else bg
  | .filled color, _ => color
  | .cursor, _ => Console.cursorColor

theorem offset_mem (font : Font) (p : Nat × Nat) : font.offset p ∈ points font.width font.height :=
  ⟨Nat.mod_lt _ font.wide, Nat.mod_lt _ font.high⟩

theorem pixel_iff (inside : o ∈ points font.width font.height) : p = font.pixel pos o ↔ font.cell p = pos ∧ font.offset p = o := by
  have column := Nat.div_mod_unique (a := p.1) (d := pos.1) (c := o.1) font.wide
  have row := Nat.div_mod_unique (a := p.2) (d := pos.2) (c := o.2) font.high
  obtain ⟨narrow, low⟩ := inside
  rw [Nat.mul_comm] at column row
  rw [Prod.ext_iff, Prod.ext_iff, Prod.ext_iff]
  simp only [pixel, cell, offset]
  constructor
  · rintro ⟨left, above⟩
    obtain ⟨first, first'⟩ := column.mpr ⟨left.symm, narrow⟩
    obtain ⟨second, second'⟩ := row.mpr ⟨above.symm, low⟩
    exact ⟨⟨first, second⟩, first', second'⟩
  · rintro ⟨⟨first, second⟩, first', second'⟩
    exact ⟨(column.mp ⟨first, first'⟩).1.symm, (row.mp ⟨second, second'⟩).1.symm⟩

theorem cell_pixel (inside : o ∈ points font.width font.height) : font.cell (font.pixel pos o) = pos :=
  ((pixel_iff inside).mp rfl).1

theorem offset_pixel (inside : o ∈ points font.width font.height) : font.offset (font.pixel pos o) = o :=
  ((pixel_iff inside).mp rfl).2

-- where the buffer of the cursor keeps it
theorem index_inj {o' : Nat × Nat} (inside : o ∈ points font.width font.height) (inside' : o' ∈ points font.width font.height)
    (same : o.2 * font.width + o.1 = o'.2 * font.width + o'.1) : o = o' := by
  have here := (Nat.div_mod_unique (a := o.2 * font.width + o.1) (d := o.2) (c := o.1) font.wide).mpr
    ⟨by rw [Nat.mul_comm, Nat.add_comm], inside.1⟩
  have there := (Nat.div_mod_unique (a := o.2 * font.width + o.1) (d := o'.2) (c := o'.1) font.wide).mpr
    ⟨by rw [same, Nat.mul_comm, Nat.add_comm], inside'.1⟩
  exact Prod.ext (here.2.symm.trans there.2) (here.1.symm.trans there.1)

end Font

namespace Console
variable {c c' : Console} {p pos o : Nat × Nat} {color : Int} {i j n line : Nat} {load : Bool}

def OnGrid (c : Console) (pos : Nat × Nat) : Prop := pos.1 < c.textCols ∧ pos.2 < c.textRows

theorem OnGrid.onScreen (inside : c.OnGrid (c.font.cell p)) : c.screen.OnScreen p.1 p.2 :=
  ⟨((Nat.div_lt_iff_lt_mul c.font.wide).mp inside.1).trans_le (Nat.div_mul_le_self _ _),
    ((Nat.div_lt_iff_lt_mul c.font.high).mp inside.2).trans_le (Nat.div_mul_le_self _ _)⟩

theorem OnGrid.pixel (inside : c.OnGrid pos) (point : o ∈ points c.font.width c.font.height) :
    c.screen.OnScreen (c.font.pixel pos o).1 (c.font.pixel pos o).2 := by
  refine OnGrid.onScreen ?_
  rw [Font.cell_pixel point]
  exact inside

theorem getPixel_plotIn {s : Screen} {font : Font} (on : s.OnScreen (font.pixel pos (i, j)).1 (font.pixel pos (i, j)).2)
    (color : Int) (p : Nat × Nat) : (plotIn s font pos i j color).getPixel p.1 p.2 =
      if p = font.pixel pos (i, j) then s.shown color else s.getPixel p.1 p.2 := by
  have drawn := s.getPixel_plot on color p.1 p.2
  by_cases here : p = font.pixel pos (i, j)
  · rw [if_pos here]
    rw [if_pos (Prod.ext_iff.mp here)] at drawn
    exact drawn
  · rw [if_neg here]
    rw [if_neg fun same => here (Prod.ext same.1 same.2)] at drawn
    exact drawn

/-! ## The cursor, drawn pixel by pixel -/

-- what a pixel shows once the buffer is loaded, if it is
def loaded (c : Console) (load : Bool) (p : Nat × Nat) : Int :=
  if load ∧ c.font.cell p = c.cursorBufferPos then
    c.screen.shown (c.cursorBuffer ((c.font.offset p).2 * c.font.width + (c.font.offset p).1))
  else c.screen.getPixel p.1 p.2

/-- The cursor is drawn on the points `V` of its cell, and not yet on the others. -/
structure Drawn (c : Console) (load : Bool) (V : Set (Nat × Nat)) (c' : Console) : Prop where
  others : c' = { c with screen := c.screen.withMemory c'.screen.framebuffer, cursorBuffer := c'.cursorBuffer }
  inside : V ⊆ points c.font.width c.font.height
  later : ∀ p, c.screen.OnScreen p.1 p.2 → c.font.offset p ∉ V → c'.screen.getPixel p.1 p.2 = c.screen.getPixel p.1 p.2
  drawn : ∀ p, c.screen.OnScreen p.1 p.2 → c.font.offset p ∈ V →
    c'.screen.getPixel p.1 p.2 = if c.font.cell p = c.cursorPos then c.screen.shown cursorColor else c.loaded load p
  buffered : ∀ o ∈ V, c'.cursorBuffer (o.2 * c.font.width + o.1) = c.loaded load (c.font.pixel c.cursorPos o)
  unbuffered : ∀ o ∈ points c.font.width c.font.height, o ∉ V →
    c'.cursorBuffer (o.2 * c.font.width + o.1) = c.cursorBuffer (o.2 * c.font.width + o.1)

theorem plotIn_size (s : Screen) (font : Font) (pos : Nat × Nat) (i j : Nat) (color : Int) :
    plotIn s font pos i j color = s.withMemory (plotIn s font pos i j color).framebuffer := s.plot_size ..

-- the screen after the pixel of the buffer
def restored (c : Console) (load : Bool) (i j : Nat) : Screen :=
  if load then plotIn c.screen c.font c.cursorBufferPos i j (c.cursorBuffer (j * c.font.width + i)) else c.screen

theorem drawPixel_eq (load : Bool) (i j : Nat) (c : Console) : drawPixel load i j c =
    { c with
      cursorBuffer := Function.update c.cursorBuffer (j * c.font.width + i) (getIn (c.restored load i j) c.font c.cursorPos i j)
      screen := plotIn (c.restored load i j) c.font c.cursorPos i j cursorColor } := by
  cases load <;> rfl

theorem restored_size (c : Console) (load : Bool) (i j : Nat) :
    c.restored load i j = c.screen.withMemory (c.restored load i j).framebuffer := by
  rw [restored]
  split_ifs
  · exact plotIn_size ..
  · rfl

theorem getPixel_restored (kept : load = true → c.OnGrid c.cursorBufferPos) (point : (i, j) ∈ points c.font.width c.font.height)
    (p : Nat × Nat) : (c.restored load i j).getPixel p.1 p.2 =
      if c.font.offset p = (i, j) then c.loaded load p else c.screen.getPixel p.1 p.2 := by
  rw [restored, loaded]
  cases load with
  | false =>
      simp only [Bool.false_eq_true, false_and, if_false]
      rw [ite_self]
  | true =>
      have drawn := getPixel_plotIn ((kept rfl).pixel point) (c.cursorBuffer (j * c.font.width + i)) p
      simp only [true_and, if_true]
      rw [drawn]
      by_cases here : c.font.offset p = (i, j)
      · rw [if_pos here, here]
        by_cases there : c.font.cell p = c.cursorBufferPos
        · rw [if_pos there, if_pos ((Font.pixel_iff point).mpr ⟨there, here⟩)]
        · rw [if_neg there, if_neg fun same => there ((Font.pixel_iff point).mp same).1]
      · rw [if_neg here, if_neg fun same => here ((Font.pixel_iff point).mp same).2]

section
variable (cursor : c.OnGrid c.cursorPos) (kept : load = true → c.OnGrid c.cursorBufferPos)
include cursor kept

theorem Drawn.step {V : Set (Nat × Nat)} (state : c.Drawn load V c') (point : (i, j) ∈ points c.font.width c.font.height)
    (fresh : (i, j) ∉ V) : c.Drawn load (V ∪ {(i, j)}) (drawPixel load i j c') := by
  obtain ⟨others, inside, later, drawn, buffered, unbuffered⟩ := state
  generalize c'.screen.framebuffer = m at others
  generalize c'.cursorBuffer = b at others
  subst others
  have size := restored_size { c with screen := c.screen.withMemory m, cursorBuffer := b } load i j
  have seen := getPixel_restored (c := { c with screen := c.screen.withMemory m, cursorBuffer := b }) kept point
  have same : b (j * c.font.width + i) = c.cursorBuffer (j * c.font.width + i) := unbuffered (i, j) point fresh
  rw [drawPixel_eq]
  generalize restored { c with screen := c.screen.withMemory m, cursorBuffer := b } load i j = s at *
  generalize s.framebuffer = m' at size
  subst size
  have here {p : Nat × Nat} (on : c.screen.OnScreen p.1 p.2) (at_ : c.font.offset p = (i, j)) :
      (c.screen.withMemory m').getPixel p.1 p.2 = c.loaded load p := by
    have old := later p on (at_ ▸ fresh)
    have pixel := seen p
    rw [if_pos at_, loaded] at pixel
    rw [loaded]
    dsimp only at pixel old
    rw [at_, same] at pixel
    rw [at_]
    rw [old] at pixel
    exact pixel
  have away {p : Nat × Nat} (off : c.font.offset p ≠ (i, j)) :
      (c.screen.withMemory m').getPixel p.1 p.2 = (c.screen.withMemory m).getPixel p.1 p.2 := by
    have pixel := seen p
    rw [if_neg off] at pixel
    exact pixel
  have plotted (p : Nat × Nat) : (plotIn (c.screen.withMemory m') c.font c.cursorPos i j cursorColor).getPixel p.1 p.2 =
      if p = c.font.pixel c.cursorPos (i, j) then c.screen.shown cursorColor else (c.screen.withMemory m').getPixel p.1 p.2 :=
    getPixel_plotIn (s := c.screen.withMemory m') (cursor.pixel point) cursorColor p
  have size := plotIn_size (c.screen.withMemory m') c.font c.cursorPos i j cursorColor
  refine ⟨?_, Set.union_subset inside (Set.singleton_subset_iff.mpr point), fun p on other => ?_, fun p on member => ?_,
    fun o member => ?_, fun o within other => ?_⟩
  · dsimp only
    rw [Screen.withMemory_withMemory, size]
    rfl
  · rw [Set.mem_union, not_or, Set.mem_singleton_iff] at other
    refine (plotted p).trans ?_
    rw [if_neg fun there => other.2 ((Font.pixel_iff point).mp there).2, away other.2]
    exact later p on other.1
  · refine (plotted p).trans ?_
    by_cases at_ : c.font.offset p = (i, j)
    · by_cases there : c.font.cell p = c.cursorPos
      · rw [if_pos there, if_pos ((Font.pixel_iff point).mpr ⟨there, at_⟩)]
      · rw [if_neg there, if_neg fun same => there ((Font.pixel_iff point).mp same).1]
        exact here on at_
    · rw [if_neg fun same => at_ ((Font.pixel_iff point).mp same).2, away at_]
      exact drawn p on (member.resolve_right at_)
  · by_cases at_ : o = (i, j)
    · subst at_
      refine (Function.update_self ..).trans ?_
      exact here (cursor.pixel point) (Font.offset_pixel point)
    · have old := member.resolve_right at_
      refine (Function.update_of_ne (fun same => at_ (Font.index_inj (inside old) point same)) _ _).trans ?_
      exact buffered o old
  · rw [Set.mem_union, not_or, Set.mem_singleton_iff] at other
    refine (Function.update_of_ne (fun same => other.2 (Font.index_inj within point same)) _ _).trans ?_
    exact unbuffered o within other.1

theorem drawCursor_drawn : ∃ c', c.drawCursor load = { c' with cursorBufferPos := c'.cursorPos } ∧
    c.Drawn load (points c.font.width c.font.height) c' := by
  refine ⟨_, rfl, scan_rule (c.Drawn load) ?_ fun i narrow j low V c' fresh state =>
    state.step cursor kept ⟨narrow, low⟩ fresh⟩
  exact ⟨rfl, Set.empty_subset _, fun _ _ _ => rfl, fun _ _ member => absurd member (Set.notMem_empty _),
    fun _ member => absurd member (Set.notMem_empty _), fun _ _ _ => rfl⟩

end

/-- The buffer is loaded to the points `V` of its cell, and not yet to the others. -/
structure Loaded (c : Console) (V : Set (Nat × Nat)) (c' : Console) : Prop where
  others : c' = { c with screen := c.screen.withMemory c'.screen.framebuffer }
  later : ∀ p, c.screen.OnScreen p.1 p.2 → c.font.offset p ∉ V → c'.screen.getPixel p.1 p.2 = c.screen.getPixel p.1 p.2
  drawn : ∀ p, c.screen.OnScreen p.1 p.2 → c.font.offset p ∈ V → c'.screen.getPixel p.1 p.2 = c.loaded true p

theorem Loaded.step {V : Set (Nat × Nat)} (kept : c.OnGrid c.cursorBufferPos) (state : c.Loaded V c')
    (point : (i, j) ∈ points c.font.width c.font.height) (fresh : (i, j) ∉ V) : c.Loaded (V ∪ {(i, j)}) (loadPixel i j c') := by
  obtain ⟨others, later, drawn⟩ := state
  generalize c'.screen.framebuffer = m at others
  subst others
  have seen : ∀ p : Nat × Nat, (restored { c with screen := c.screen.withMemory m } true i j).getPixel p.1 p.2 = _ :=
    getPixel_restored (c := { c with screen := c.screen.withMemory m }) (fun _ => kept) point
  have size := restored_size { c with screen := c.screen.withMemory m } true i j
  have whole : loadPixel i j { c with screen := c.screen.withMemory m } =
      { c with screen := restored { c with screen := c.screen.withMemory m } true i j } := rfl
  rw [whole]
  generalize restored { c with screen := c.screen.withMemory m } true i j = s at *
  refine ⟨congrArg (fun s : Screen => ({ c with screen := s } : Console)) size, fun p on other => ?_, fun p on member => ?_⟩
  · rw [Set.mem_union, not_or, Set.mem_singleton_iff] at other
    have pixel := seen p
    rw [if_neg other.2] at pixel
    exact pixel.trans (later p on other.1)
  · have pixel := seen p
    by_cases at_ : c.font.offset p = (i, j)
    · have old := later p on (at_ ▸ fresh)
      rw [if_pos at_, loaded] at pixel
      rw [loaded]
      dsimp only at pixel old
      rw [old] at pixel
      exact pixel
    · rw [if_neg at_] at pixel
      exact pixel.trans (drawn p on (member.resolve_right at_))

theorem loadCursorBuffer_loaded (kept : c.OnGrid c.cursorBufferPos) :
    c.Loaded (points c.font.width c.font.height) c.loadCursorBuffer := by
  refine scan_rule c.Loaded ?_ fun i narrow j low V c' fresh state => state.step kept ⟨narrow, low⟩ fresh
  exact ⟨rfl, fun _ _ _ => rfl, fun _ _ member => absurd member (Set.notMem_empty _)⟩

/-! ## A glyph, drawn bit by bit -/

theorem plotIn_inks {s : Screen} {font : Font} {ink : Nat × Nat → Int}
    (on : s.OnScreen (font.pixel pos (i, j)).1 (font.pixel pos (i, j)).2) (same : ink (font.pixel pos (i, j)) = color) :
    s.Inks (plotIn s font pos i j color) {font.pixel pos (i, j)} ink := Screen.plot_inks on same

theorem plotBits_inks {font : Font} {s : Screen} {k : Nat} (on : ∀ o ∈ points font.width font.height,
    s.OnScreen (font.pixel pos o).1 (font.pixel pos o).2) (low : line < font.height) (few : n ≤ 8)
    (narrow : 8 * k + n ≤ font.width) (chr : UInt8) (fg bg : Int) :
    s.Inks (plotBits font (font.glyph chr (line * font.perLine + k)) pos (8 * k) line fg bg n s)
      {p | font.cell p = pos ∧ (font.offset p).2 = line ∧ 8 * k ≤ (font.offset p).1 ∧ (font.offset p).1 < 8 * k + n}
      fun p => font.ink (.glyph chr fg bg) (font.offset p) := by
  induction n with
  | zero =>
      refine (Screen.Inks.refl s _).congr ?_
      ext p
      simp only [Set.mem_empty_iff_false, Set.mem_ofPred_eq, false_iff]
      omega
  | succ n ih =>
      have first := ih (by omega) (by omega)
      have point : (n + 8 * k, line) ∈ points font.width font.height := ⟨by dsimp only; omega, low⟩
      rw [plotBits]
      generalize plotBits font (font.glyph chr (line * font.perLine + k)) pos (8 * k) line fg bg n s = s' at *
      have on' : s'.OnScreen (font.pixel pos (n + 8 * k, line)).1 (font.pixel pos (n + 8 * k, line)).2 := by
        rw [first.size]
        exact on _ point
      have place : (n + 8 * k) / 8 = k ∧ (n + 8 * k) % 8 = n := by omega
      refine (first.trans (plotIn_inks on' ?_)).congr ?_
      · rw [Font.offset_pixel point, Font.ink, Font.bit, place.1, place.2]
      · ext p
        rw [Set.mem_union, Set.mem_singleton_iff, Font.pixel_iff point, Prod.ext_iff (x := font.offset p)]
        simp only [Set.mem_ofPred_eq]
        rw [← and_or_left]
        refine and_congr_right fun _ => ?_
        omega


theorem perLine_pos (font : Font) : 0 < font.perLine := by
  have wide := font.wide
  rw [Font.perLine]
  omega

theorem glyphLoop_inks {font : Font} {s : Screen} {k : Nat} (on : ∀ o ∈ points font.width font.height,
    s.OnScreen (font.pixel pos o).1 (font.pixel pos o).2) (left : line * font.perLine + k + n = font.bytesperglyph)
    (narrow : k < font.perLine) (chr : UInt8) (fg bg : Int) :
    s.Inks (glyphLoop font chr pos fg bg n (line * font.perLine + k) (8 * k) line s)
      {p | font.cell p = pos ∧ line * font.perLine + k ≤ (font.offset p).2 * font.perLine + (font.offset p).1 / 8}
      fun p => font.ink (.glyph chr fg bg) (font.offset p) := by
  have size : font.bytesperglyph = font.height * font.perLine := font.glyphs
  have wide := font.wide
  have per : font.perLine = (font.width + 7) / 8 := rfl
  induction n generalizing k line s with
  | zero =>
      refine (Screen.Inks.refl s _).congr ?_
      ext p
      obtain ⟨inside, below⟩ := font.offset_mem p
      have rows := Nat.mul_le_mul_right font.perLine (Nat.succ_le_of_lt below)
      rw [Nat.succ_mul] at rows
      simp only [Set.mem_empty_iff_false, Set.mem_ofPred_eq, false_iff]
      omega
  | succ n ih =>
      have low : line < font.height := by
        by_contra high
        have rows := Nat.mul_le_mul_right font.perLine (not_lt.mp high)
        omega
      -- a byte more: its bits, and the bytes behind it
      have parts (p : Nat × Nat) : line * font.perLine + k ≤ (font.offset p).2 * font.perLine + (font.offset p).1 / 8 ↔
          ((font.offset p).2 = line ∧ 8 * k ≤ (font.offset p).1 ∧ (font.offset p).1 < 8 * k + min (font.width - 8 * k) 8) ∨
            line * font.perLine + (k + 1) ≤ (font.offset p).2 * font.perLine + (font.offset p).1 / 8 := by
        obtain ⟨inside, -⟩ := font.offset_mem p
        have column : (font.offset p).1 / 8 < font.perLine := by omega
        rcases lt_trichotomy (font.offset p).2 line with above | same | below
        · have rows := Nat.mul_le_mul_right font.perLine (Nat.succ_le_of_lt above)
          rw [Nat.succ_mul] at rows
          omega
        · rw [same]
          omega
        · have rows := Nat.mul_le_mul_right font.perLine (Nat.succ_le_of_lt below)
          rw [Nat.succ_mul] at rows
          omega
      have remain : (if font.width - 8 * k > 8 then 8 else font.width - 8 * k) = min (font.width - 8 * k) 8 := by
        split_ifs <;> omega
      have bits := plotBits_inks (k := k) on low (Nat.min_le_right (font.width - 8 * k) 8) (by omega) chr fg bg
      rw [glyphLoop, remain]
      generalize plotBits font (font.glyph chr (line * font.perLine + k)) pos (8 * k) line fg bg
        (min (font.width - 8 * k) 8) s = s' at *
      have on' : ∀ o ∈ points font.width font.height, s'.OnScreen (font.pixel pos o).1 (font.pixel pos o).2 := by
        rw [bits.size]
        exact on
      have joined {s'' : Screen}
          (rest : s'.Inks s'' {p | font.cell p = pos ∧ line * font.perLine + (k + 1) ≤
            (font.offset p).2 * font.perLine + (font.offset p).1 / 8} fun p => font.ink (.glyph chr fg bg) (font.offset p)) :
          s.Inks s'' {p | font.cell p = pos ∧ line * font.perLine + k ≤ (font.offset p).2 * font.perLine + (font.offset p).1 / 8}
            fun p => font.ink (.glyph chr fg bg) (font.offset p) := by
        refine (bits.trans rest).congr ?_
        ext p
        simp only [Set.mem_union, Set.mem_ofPred_eq]
        rw [← and_or_left, parts p]
      by_cases last : 8 * k + min (font.width - 8 * k) 8 ≥ font.width
      · have full : k + 1 = font.perLine := by omega
        rw [if_pos last]
        have rest : s'.Inks (glyphLoop font chr pos fg bg n ((line + 1) * font.perLine + 0) (8 * 0) (line + 1) s') _ _ :=
          ih on' (by rw [Nat.add_mul]; omega) (perLine_pos font)
        have start : (line + 1) * font.perLine + 0 = line * font.perLine + (k + 1) := by rw [Nat.add_mul]; omega
        rw [start] at rest
        exact joined rest
      · have next : 8 * k + min (font.width - 8 * k) 8 = 8 * (k + 1) := by omega
        have rest : s'.Inks (glyphLoop font chr pos fg bg n (line * font.perLine + (k + 1)) (8 * (k + 1)) line s') _ _ :=
          ih on' (by omega) (by omega)
        rw [if_neg last, next]
        exact joined rest

/-! ## Bytes that are moved -/

theorem rows_fit (c : Console) : c.textRows * c.font.height ≤ c.screen.fbHeight := Nat.div_mul_le_self _ _

theorem pixel_fits (on : c.screen.OnScreen p.1 p.2) :
    c.screen.pixelAddr p.1 p.2 + c.screen.pixelSize ≤ (p.2 + 1) * c.screen.fbPitch := by
  have size := c.screen.rowSize
  have width := Nat.mul_le_mul_left c.screen.pixelSize (Nat.succ_le_of_lt on.1)
  rw [Nat.mul_succ] at width
  rw [Screen.pixelAddr, Nat.succ_mul]
  omega

theorem getPixel_moved {m : Bytes} {q : Nat × Nat} (on : c.screen.OnScreen p.1 p.2) (from_ : c.screen.OnScreen q.1 q.2)
    (same : ∀ k < c.screen.pixelSize, m (c.screen.pixelAddr p.1 p.2 + k) = c.screen.framebuffer (c.screen.pixelAddr q.1 q.2 + k)) :
    (c.screen.withMemory m).getPixel p.1 p.2 = c.screen.getPixel q.1 q.2 := by
  rw [Screen.getPixel_eq, Screen.getPixel_eq, if_pos from_]
  refine (if_pos on).trans (congrArg (fun n : Nat => int n) ?_)
  exact Bytes.field_shift same

theorem getPixel_cleared {m : Bytes} (on : c.screen.OnScreen p.1 p.2)
    (zero : ∀ k < c.screen.pixelSize, m (c.screen.pixelAddr p.1 p.2 + k) = 0) : (c.screen.withMemory m).getPixel p.1 p.2 = 0 := by
  rw [Screen.getPixel_eq]
  refine (if_pos on).trans ((congrArg (fun n : Nat => int n) (Bytes.field_zero zero)).trans ?_)
  exact int_eq ⟨by decide, by decide⟩

theorem scrollScreen_pixels (n : Nat) (row : c.OnGrid (c.font.cell p)) : (c.scrollScreen n).screen.getPixel p.1 p.2 =
    if (c.font.cell p).2 + n < c.textRows then c.screen.getPixel p.1 (p.2 + n * c.font.height)
    else 0 := by
  have on := row.onScreen
  have fits := pixel_fits on
  have inside : p.2 < c.textRows * c.font.height := (Nat.div_lt_iff_lt_mul c.font.high).mp row.2
  have all := Nat.mul_le_mul_right c.screen.fbPitch (Nat.succ_le_of_lt inside)
  rw [Nat.succ_eq_add_one] at all
  rw [scrollScreen]
  by_cases none : n = 0
  · subst none
    rw [if_pos rfl, Nat.add_zero, Nat.zero_mul, Nat.add_zero, if_pos row.2]
  rw [if_neg none]
  by_cases whole : n ≥ c.textRows
  · rw [if_pos whole, if_neg (by omega)]
    exact getPixel_cleared on fun k less => if_pos ⟨Nat.zero_le _, by omega⟩
  rw [if_neg whole]
  have split : (c.textRows - n) * (c.font.height * c.screen.fbPitch) + n * (c.font.height * c.screen.fbPitch) =
      c.textRows * c.font.height * c.screen.fbPitch := by
    rw [← Nat.add_mul, Nat.sub_add_cancel (by omega), Nat.mul_assoc]
  have addr : c.screen.pixelAddr p.1 p.2 = p.2 * c.screen.fbPitch + c.screen.pixelSize * p.1 := rfl
  by_cases kept : (c.font.cell p).2 + n < c.textRows
  · rw [if_pos kept]
    have above : p.2 < (c.textRows - n) * c.font.height := by
      refine (Nat.div_lt_iff_lt_mul c.font.high).mp ?_
      have : p.2 / c.font.height + n < c.textRows := kept
      omega
    have stop := Nat.mul_le_mul_right c.screen.fbPitch (Nat.succ_le_of_lt above)
    rw [Nat.succ_eq_add_one, Nat.mul_assoc] at stop
    have below : p.2 + n * c.font.height < c.textRows * c.font.height := by
      have rows : (c.textRows - n) * c.font.height + n * c.font.height = c.textRows * c.font.height := by
        rw [← Nat.add_mul, Nat.sub_add_cancel (by omega)]
      omega
    have from_ : c.screen.OnScreen p.1 (p.2 + n * c.font.height) := ⟨on.1, below.trans_le c.rows_fit⟩
    refine getPixel_moved (q := (p.1, p.2 + n * c.font.height)) on from_ fun k less => ?_
    have place : c.screen.pixelAddr p.1 (p.2 + n * c.font.height) =
        n * (c.font.height * c.screen.fbPitch) + c.screen.pixelAddr p.1 p.2 := by
      rw [addr, Screen.pixelAddr]
      ring
    dsimp only
    rw [place, clearBytes, if_neg (by omega), moveBytes, if_pos ⟨Nat.zero_le _, by omega⟩, Nat.sub_zero, Nat.add_assoc]
  · rw [if_neg kept]
    have after : (c.textRows - n) * c.font.height ≤ p.2 := by
      refine (Nat.le_div_iff_mul_le c.font.high).mp ?_
      have : ¬ p.2 / c.font.height + n < c.textRows := kept
      omega
    have start := Nat.mul_le_mul_right c.screen.fbPitch after
    rw [Nat.mul_assoc] at start
    exact getPixel_cleared on fun k less => if_pos ⟨by omega, by omega⟩

end Console
end Kerosene.Video
