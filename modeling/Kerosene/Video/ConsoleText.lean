import Kerosene.Video.ConsolePixels
import Kerosene.Video.FramebufferPrinting

/-!
# The pixels show the text

The console in pixels against the text of the framebuffer in cells, over runs of calls.
-/

namespace Kerosene.Video
open Lib Framebuffer
namespace Console
variable {c : Console} {f : Framebuffer} {p pos : Nat × Nat} {fg bg : Int} {chr : UInt8} {spared : Set (Nat × Nat)}
  {str : List UInt8} {n : Nat}

/-! ## A backspace -/

/-- The cells that have a border with the lower right corner of a cell. -/
def Beside (pos n : Nat × Nat) : Prop := n ≠ pos ∧ (n.1 = pos.1 ∨ n.1 = pos.1 + 1) ∧ (n.2 = pos.2 ∨ n.2 = pos.2 + 1)

-- the pixel behind the last one of a cell lies in the next cell
theorem div_lt_add_two {size m : Nat} (positive : 0 < size) (most : n ≤ (m + 1) * size) : n / size < m + 2 := by
  have next : (m + 2) * size = (m + 1) * size + size := Nat.succ_mul ..
  exact (Nat.div_lt_iff_lt_mul positive).mpr (by omega)

theorem erase_inks (on : c.OnGrid pos) (bg : Int) : ∃ region, c.screen.Inks (c.screen.fillRectangle (pos.1 * c.font.width : Nat)
      (pos.2 * c.font.height : Nat) ((pos.1 + 1) * c.font.width : Nat) ((pos.2 + 1) * c.font.height : Nat) bg)
      region (fun _ => bg) ∧
    (∀ p, c.screen.OnScreen p.1 p.2 → c.font.cell p = pos → p ∈ region) ∧
    ∀ p ∈ region, c.font.cell p = pos ∨ Beside pos (c.font.cell p) := by
  have width := c.screen.width
  have height := c.screen.height
  have wide := c.font.wide
  have high := c.font.high
  have right : (pos.1 + 1) * c.font.width ≤ c.screen.fbWidth := (Nat.le_div_iff_mul_le wide).mp on.1
  have lower : (pos.2 + 1) * c.font.height ≤ c.screen.fbHeight := (Nat.le_div_iff_mul_le high).mp on.2
  have stepX : (pos.1 + 1) * c.font.width = pos.1 * c.font.width + c.font.width := Nat.succ_mul ..
  have stepY : (pos.2 + 1) * c.font.height = pos.2 * c.font.height + c.font.height := Nat.succ_mul ..
  have corners : c.screen.Corners (pos.1 * c.font.width : Nat) (pos.2 * c.font.height : Nat) ((pos.1 + 1) * c.font.width : Nat)
      ((pos.2 + 1) * c.font.height : Nat) :=
    ⟨⟨by omega, by omega⟩, ⟨by omega, by omega⟩, ⟨by omega, by omega⟩, ⟨by omega, by omega⟩, by omega, by omega⟩
  have paints := Screen.fillRectangle_paints corners bg
  -- the lower right corner may lie behind the last pixel
  have region (p : Nat × Nat) : ((p.1 : Int), (p.2 : Int)) ∈ c.screen.filled (pos.1 * c.font.width : Nat)
      (pos.2 * c.font.height : Nat) ((pos.1 + 1) * c.font.width : Nat) ((pos.2 + 1) * c.font.height : Nat) ↔
      (pos.1 * c.font.width ≤ p.1 ∧ p.1 ≤ min ((pos.1 + 1) * c.font.width) (c.screen.fbWidth - 1)) ∧
        pos.2 * c.font.height ≤ p.2 ∧ p.2 ≤ min ((pos.2 + 1) * c.font.height) (c.screen.fbHeight - 1) := by
    rw [Screen.filled, Set.mem_ofPred_eq, Screen.clamp_eq corners.x0 width corners.width,
      Screen.clamp_eq corners.x1 width corners.width, Screen.clamp_eq corners.y0 height corners.height,
      Screen.clamp_eq corners.y1 height corners.height, Between, Between]
    refine and_congr ?_ ?_ <;> split_ifs <;> omega
  refine ⟨{p | ((p.1 : Int), (p.2 : Int)) ∈ Screen.filled _ _ _ _ _}, ⟨paints.size, fun p member on => paints.inside _ _ on member,
    fun p other => paints.outside _ _ other⟩, fun p seen here => (region p).mpr ?_, fun p member => ?_⟩
  · subst here
    dsimp only [Font.cell]
    dsimp only [Font.cell] at right lower stepX stepY
    have inX := (Nat.div_lt_iff_lt_mul wide).mp (Nat.lt_succ_self (p.1 / c.font.width))
    have inY := (Nat.div_lt_iff_lt_mul high).mp (Nat.lt_succ_self (p.2 / c.font.height))
    have fromX := Nat.div_mul_le_self p.1 c.font.width
    have fromY := Nat.div_mul_le_self p.2 c.font.height
    obtain ⟨left, above⟩ := seen
    exact ⟨⟨fromX, by rw [Nat.le_min]; exact ⟨inX.le, by omega⟩⟩, fromY, by rw [Nat.le_min]; exact ⟨inY.le, by omega⟩⟩
  · obtain ⟨⟨fromX, toX⟩, fromY, toY⟩ := (region p).mp member
    have lowX := (Nat.le_div_iff_mul_le wide).mpr fromX
    have lowY := (Nat.le_div_iff_mul_le high).mpr fromY
    have highX := div_lt_add_two wide (toX.trans (min_le_left _ _))
    have highY := div_lt_add_two high (toY.trans (min_le_left _ _))
    refine or_iff_not_imp_left.mpr fun other => ⟨other, ?_, ?_⟩
    · rw [Font.cell]
      dsimp only
      omega
    · rw [Font.cell]
      dsimp only
      omega

/-! ## The cells and their pixels -/

/-- Every pixel of the grid has the colour of its cell, those of the spared cells excepted, and so has the buffer of the cursor. -/
structure Shows (c : Console) (f : Framebuffer) (spared : Set (Nat × Nat)) : Prop where
  fg : f.currentFg = c.currentFg
  bg : f.currentBg = c.currentBg
  rows : f.textRows = c.textRows
  cols : f.textCols = c.textCols
  cursor : f.cursorPos = c.cursorPos
  bufferPos : f.cursorBufferPos = c.cursorBufferPos
  pixels : ∀ p, c.OnGrid (c.font.cell p) → c.font.cell p ∉ spared →
    c.screen.getPixel p.1 p.2 = c.screen.shown (c.font.ink (f.framebuffer (c.font.cell p)) (c.font.offset p))
  buffer : ∀ o ∈ points c.font.width c.font.height,
    c.cursorBuffer (o.2 * c.font.width + o.1) = c.screen.shown (c.font.ink f.cursorBuffer o)

-- another screen and another grid
theorem Shows.redraw {s : Screen} {grid : Grid} {spared' : Set (Nat × Nat)} (shows : c.Shows f spared)
    (size : s = c.screen.withMemory s.framebuffer)
    (pixels : ∀ p, c.OnGrid (c.font.cell p) → c.font.cell p ∉ spared' →
      s.getPixel p.1 p.2 = c.screen.shown (c.font.ink (grid (c.font.cell p)) (c.font.offset p))) :
    Shows { c with screen := s } { f with framebuffer := grid } spared' := by
  generalize s.framebuffer = m at size
  subst size
  exact ⟨shows.fg, shows.bg, shows.rows, shows.cols, shows.cursor, shows.bufferPos, pixels, shows.buffer⟩

theorem Shows.loaded {load : Bool} (shows : c.Shows f spared) (excused : ∀ n ∈ spared, load = true ∧ n = c.cursorBufferPos)
    (on : c.OnGrid (c.font.cell p)) : c.loaded load p = c.screen.shown (c.font.ink
      ((if load then f.loadCursorBuffer else f).framebuffer (c.font.cell p)) (c.font.offset p)) := by
  rw [Console.loaded]
  by_cases here : load = true ∧ c.font.cell p = c.cursorBufferPos
  · rw [if_pos here, if_pos here.1, shows.buffer _ (c.font.offset_mem p), Screen.shown_shown, here.2, ← shows.bufferPos]
    have own : f.loadCursorBuffer.framebuffer f.cursorBufferPos = f.cursorBuffer := Function.update_self ..
    rw [own]
  · rw [if_neg here, shows.pixels p on fun member => here ((excused _ member).imp_right fun same => same)]
    refine congrArg (fun cell => c.screen.shown (c.font.ink cell (c.font.offset p))) ?_
    split_ifs with loads
    · refine (Function.update_of_ne ?_ _ _).symm
      rw [shows.bufferPos]
      exact fun same => here ⟨loads, same⟩
    · rfl

theorem Shows.drawCursor {load : Bool} (shows : c.Shows f spared) (excused : ∀ n ∈ spared, load = true ∧ n = c.cursorBufferPos)
    (cursor : c.OnGrid c.cursorPos) (kept : c.OnGrid c.cursorBufferPos) :
    Shows (c.drawCursor load) (f.drawCursor load) ∅ := by
  obtain ⟨c', same, others, -, -, drawn, buffered, -⟩ : ∃ c', c.drawCursor load = _ ∧ Drawn c load _ c' :=
    drawCursor_drawn cursor fun _ => kept
  have seen {p : Nat × Nat} (on : c.OnGrid (c.font.cell p)) := shows.loaded excused on
  have frame : f.drawCursor load =
      { f with
        cursorBuffer := (if load then f.loadCursorBuffer else f).framebuffer f.cursorPos
        framebuffer := Function.update (if load then f.loadCursorBuffer else f).framebuffer f.cursorPos .cursor
        cursorBufferPos := f.cursorPos } := by
    cases load <;> rfl
  rw [same, frame]
  generalize (if load then f.loadCursorBuffer else f).framebuffer = grid at seen
  generalize c'.screen.framebuffer = m at others
  generalize c'.cursorBuffer = b at others
  subst others
  refine ⟨shows.fg, shows.bg, shows.rows, shows.cols, shows.cursor, shows.cursor, fun p on _ => ?_, fun o point => ?_⟩
  · refine (drawn p on.onScreen (c.font.offset_mem p)).trans ?_
    by_cases here : c.font.cell p = c.cursorPos
    · have own : c.font.cell p = f.cursorPos := here.trans shows.cursor.symm
      rw [if_pos here]
      dsimp only
      rw [own, Function.update_self]
      rfl
    · rw [if_neg here, seen on]
      refine congrArg (fun cell => c.screen.shown (c.font.ink cell (c.font.offset p))) (Function.update_of_ne ?_ _ _).symm
      rwa [shows.cursor]
  · have cell : c.font.cell (c.font.pixel c.cursorPos o) = c.cursorPos := Font.cell_pixel point
    have pixel := seen (p := c.font.pixel c.cursorPos o) (by rw [cell]; exact cursor)
    rw [cell, Font.offset_pixel point, ← shows.cursor] at pixel
    refine (buffered o point).trans ?_
    rw [← shows.cursor]
    exact pixel

theorem Shows.loadCursorBuffer (shows : c.Shows f ∅) (kept : c.OnGrid c.cursorBufferPos) :
    Shows c.loadCursorBuffer f.loadCursorBuffer ∅ := by
  obtain ⟨others, -, drawn⟩ := loadCursorBuffer_loaded kept
  have seen {p : Nat × Nat} (on : c.OnGrid (c.font.cell p)) : c.loaded true p = _ :=
    shows.loaded (fun _ member => absurd member (Set.notMem_empty _)) on
  rw [others]
  generalize c.loadCursorBuffer.screen.framebuffer = m at others
  rw [others] at drawn
  exact shows.redraw rfl fun p on _ => (drawn p on.onScreen (c.font.offset_mem p)).trans (seen on)

theorem Shows.moveTo (shows : c.Shows f spared) (pos : Nat × Nat) :
    Shows { c with cursorPos := pos } { f with cursorPos := pos } spared :=
  ⟨shows.fg, shows.bg, shows.rows, shows.cols, rfl, shows.bufferPos, shows.pixels, shows.buffer⟩

theorem cell_down (c : Console) (p : Nat × Nat) (n : Nat) :
    c.font.cell (p.1, p.2 + n * c.font.height) = ((c.font.cell p).1, (c.font.cell p).2 + n) ∧
      c.font.offset (p.1, p.2 + n * c.font.height) = c.font.offset p :=
  ⟨Prod.ext rfl (Nat.add_mul_div_right _ _ c.font.high), Prod.ext rfl (Nat.add_mul_mod_self_right ..)⟩

theorem scrollScreen_size (c : Console) (n : Nat) : c.scrollScreen n =
    { c with
      screen := c.screen.withMemory (c.scrollScreen n).screen.framebuffer
      cursorPos := (c.scrollScreen n).cursorPos
      cursorBufferPos := (c.scrollScreen n).cursorBufferPos } := by
  rw [scrollScreen]
  split_ifs <;> rfl

theorem Shows.scrollScreen (shows : c.Shows f ∅) (n : Nat) : Shows (c.scrollScreen n) (f.scrollScreen n) ∅ := by
  have size := scrollScreen_size c n
  have pixels (p : Nat × Nat) (on : c.OnGrid (c.font.cell p)) : (c.scrollScreen n).screen.getPixel p.1 p.2 =
      c.screen.shown (c.font.ink ((f.scrollScreen n).framebuffer (c.font.cell p)) (c.font.offset p)) := by
    have below : (c.font.cell p).2 < f.textRows := shows.rows ▸ on.2
    rw [scrollScreen_pixels n on, Framebuffer.scrollScreen]
    by_cases none : n = 0
    · rw [if_pos none, if_pos (by rw [none]; exact on.2), none, Nat.zero_mul, Nat.add_zero]
      exact shows.pixels p on (Set.notMem_empty _)
    rw [if_neg none]
    by_cases whole : n ≥ f.textRows
    · rw [if_pos whole, if_neg (by rw [← shows.rows]; omega)]
      dsimp only
      rw [if_pos below, Font.ink, Screen.shown_zero]
    rw [if_neg whole]
    dsimp only
    rw [shiftRows_eq]
    by_cases kept : (c.font.cell p).2 + n < c.textRows
    · obtain ⟨cell, offset⟩ := cell_down c p n
      have old := shows.pixels (p.1, p.2 + n * c.font.height) (by rw [cell]; exact ⟨on.1, kept⟩) (Set.notMem_empty _)
      rw [cell, offset] at old
      rw [if_pos kept, if_pos (by rw [shows.rows]; omega)]
      exact old
    · rw [if_neg kept, if_neg (by rw [shows.rows]; omega), if_pos below, Font.ink, Screen.shown_zero]
  have cursor : (f.scrollScreen n).cursorPos = (c.scrollScreen n).cursorPos := by
    rw [Console.scrollScreen, Framebuffer.scrollScreen, shows.rows, shows.cursor]
    split_ifs <;> first | rfl | exact shows.cursor
  have bufferPos : (f.scrollScreen n).cursorBufferPos = (c.scrollScreen n).cursorBufferPos := by
    rw [Console.scrollScreen, Framebuffer.scrollScreen, shows.rows, shows.bufferPos]
    split_ifs <;> first | rfl | exact shows.bufferPos
  have frame : f.scrollScreen n = { f with
      framebuffer := (f.scrollScreen n).framebuffer
      cursorPos := (f.scrollScreen n).cursorPos
      cursorBufferPos := (f.scrollScreen n).cursorBufferPos } := by
    rw [Framebuffer.scrollScreen]
    split_ifs <;> rfl
  generalize f.scrollScreen n = g at *
  generalize c.scrollScreen n = d at *
  rw [size] at pixels
  rw [size, frame]
  exact ⟨shows.fg, shows.bg, shows.rows, shows.cols, cursor, bufferPos, fun p on _ => pixels p on, shows.buffer⟩

/-- Beside the cell there is nothing that a backspace would change, but what is restored. -/
def Clear (textRows textCols : Nat) (grid : Grid) (pos : Nat × Nat) (bg : Int) (spared : Set (Nat × Nat)) : Prop :=
  ∀ n, Beside pos n → n.1 < textCols → n.2 < textRows → n ∉ spared → grid n = .filled bg

theorem Shows.draw (shows : c.Shows f ∅) (on : c.OnGrid pos) (fg bg : Int)
    (clear : chr = backspace → Clear f.textRows f.textCols f.framebuffer (back f.textCols pos) bg spared) :
    Shows (c.draw fg bg chr pos) { f with framebuffer := Framebuffer.draw f.textCols fg bg chr pos f.framebuffer } spared := by
  rw [Console.draw, Framebuffer.draw]
  split_ifs with line erase
  · exact ⟨shows.fg, shows.bg, shows.rows, shows.cols, shows.cursor, shows.bufferPos,
      fun p on _ => shows.pixels p on (Set.notMem_empty _), shows.buffer⟩
  · have inside : c.OnGrid (back c.textCols pos) := by
      obtain ⟨column, row⟩ := on
      rw [back]
      split_ifs
      · exact ⟨by dsimp only; omega, by dsimp only; omega⟩
      · exact ⟨by dsimp only; omega, row⟩
    have same : back f.textCols pos = back c.textCols pos := by rw [shows.cols]
    rw [same] at clear ⊢
    generalize back c.textCols pos = e at *
    obtain ⟨x, y⟩ := e
    obtain ⟨region, inks, covers, reaches⟩ := erase_inks inside bg
    refine shows.redraw inks.size fun p seen free => ?_
    by_cases filled : p ∈ region
    · rw [inks.inside p filled seen.onScreen]
      rcases reaches p filled with here | beside
      · rw [here, Function.update_self, Font.ink]
      · have same : f.framebuffer (c.font.cell p) = .filled bg :=
          clear erase _ beside (by rw [shows.cols]; exact seen.1) (by rw [shows.rows]; exact seen.2) free
        rw [Function.update_of_ne beside.1, same, Font.ink]
    · have other : c.font.cell p ≠ (x, y) := fun here => filled (covers p seen.onScreen here)
      rw [inks.outside p filled, Function.update_of_ne other]
      exact shows.pixels p seen (Set.notMem_empty _)
  · have points_on (o : Nat × Nat) (point : o ∈ points c.font.width c.font.height) := on.pixel point
    have left : 0 * c.font.perLine + 0 + c.font.bytesperglyph = c.font.bytesperglyph := by rw [Nat.zero_mul, Nat.zero_add]
    have inks := glyphLoop_inks (k := 0) points_on left (perLine_pos c.font) chr fg bg
    rw [Nat.zero_mul, Nat.mul_zero, Nat.add_zero] at inks
    refine shows.redraw inks.size fun p seen _ => ?_
    by_cases here : c.font.cell p = pos
    · rw [inks.inside p ⟨here, Nat.zero_le _⟩ seen.onScreen, here, Function.update_self]
    · rw [inks.outside p fun member => here member.1, Function.update_of_ne here]
      exact shows.pixels p seen (Set.notMem_empty _)

/-! ## The calls -/

theorem Shows.onGrid (shows : c.Shows f spared) : c.OnGrid pos ↔ pos.1 < f.textCols ∧ pos.2 < f.textRows := by
  rw [shows.cols, shows.rows]
  rfl

theorem Shows.fgOf (shows : c.Shows f spared) (fg : Int) : c.fgOf fg = f.fgOf fg := by
  rw [Console.fgOf, Framebuffer.fgOf, shows.fg]

theorem Shows.bgOf (shows : c.Shows f spared) (bg : Int) : c.bgOf bg = f.bgOf bg := by
  rw [Console.bgOf, Framebuffer.bgOf, shows.bg]

theorem Shows.posOf (shows : c.Shows f spared) (offset : Int) : c.posOf offset = f.posOf offset := by
  rw [Console.posOf, Framebuffer.posOf, shows.cols, shows.cursor]

-- the two positions of the cursor
structure Inside (f : Framebuffer) : Prop where
  cursor : f.cursorPos.1 < f.textCols ∧ f.cursorPos.2 < f.textRows
  buffer : f.cursorBufferPos.1 < f.textCols ∧ f.cursorBufferPos.2 < f.textRows

theorem Shows.cursorOn (shows : c.Shows f spared) (inside : Inside f) : c.OnGrid c.cursorPos := by
  rw [← shows.cursor]
  exact shows.onGrid.mpr inside.cursor

theorem Shows.bufferOn (shows : c.Shows f spared) (inside : Inside f) : c.OnGrid c.cursorBufferPos := by
  rw [← shows.bufferPos]
  exact shows.onGrid.mpr inside.buffer

theorem Shows.finish {load : Bool} (shows : c.Shows f spared) (excused : ∀ n ∈ spared, load = true ∧ n = f.cursorBufferPos)
    (inside : Inside f) : Shows (c.drawCursor load) (f.drawCursor load) ∅ ∧ Inside (f.drawCursor load) := by
  rw [shows.bufferPos] at excused
  refine ⟨shows.drawCursor excused (shows.cursorOn inside) (shows.bufferOn inside), ?_⟩
  cases load <;> exact ⟨inside.cursor, inside.cursor⟩

theorem moved_up (n y : Nat) : (if y ≥ n then y - n else 0) = y - n := by
  split_ifs <;> omega

theorem scrollScreen_inside (buffer : f.cursorBufferPos.1 < f.textCols ∧ f.cursorBufferPos.2 < f.textRows)
    (column : f.cursorPos.1 < f.textCols) (row : f.cursorPos.2 < f.textRows + n) : Inside (f.scrollScreen n) := by
  have positive := Nat.zero_lt_of_lt buffer.2
  rw [Framebuffer.scrollScreen, moved_up, moved_up]
  split_ifs with none whole
  · exact ⟨⟨column, by omega⟩, buffer⟩
  · exact ⟨⟨column, positive⟩, ⟨buffer.1, positive⟩⟩
  · exact ⟨⟨column, by dsimp only; omega⟩, ⟨buffer.1, by dsimp only; omega⟩⟩

theorem Shows.printc (shows : c.Shows f ∅) (inside : Inside f) (fg bg : Int) (move : Bool) {offset : Int}
    (on : (f.posOf offset).1 < f.textCols ∧ (f.posOf offset).2 < f.textRows)
    (clear : chr = backspace →
      Clear f.textRows f.textCols f.framebuffer (back f.textCols (f.posOf offset)) (f.bgOf bg) {f.cursorBufferPos}) :
    Shows (c.printc chr offset fg bg move) (f.printc chr offset fg bg move) ∅ ∧ Inside (f.printc chr offset fg bg move) := by
  rw [Console.printc, Framebuffer.printc]
  by_cases nul : chr = 0
  · rw [if_pos nul, if_pos nul]
    exact ⟨shows, inside⟩
  rw [if_neg nul, if_neg nul, shows.fgOf, shows.bgOf, shows.posOf]
  dsimp only
  have drawn : Shows _ _ {n | chr = backspace ∧ n = f.cursorBufferPos} := shows.draw (shows.onGrid.mpr on) (f.fgOf fg) (f.bgOf bg)
    fun erase n beside left below free => clear erase n beside left below fun same => free ⟨erase, same⟩
  generalize f.posOf offset = pos at *
  generalize c.draw (f.fgOf fg) (f.bgOf bg) chr pos = d at *
  generalize Framebuffer.draw f.textCols (f.fgOf fg) (f.bgOf bg) chr pos f.framebuffer = grid at *
  have excused : ∀ n ∈ ({n | chr = backspace ∧ n = f.cursorBufferPos} : Set (Nat × Nat)),
      decide (chr = newline ∨ chr = backspace) = true ∧ n = f.cursorBufferPos :=
    fun n member => ⟨decide_eq_true (.inr member.1), member.2⟩
  cases move with
  | false => exact drawn.finish excused ⟨inside.cursor, inside.buffer⟩
  | true =>
      have column : (advance f.textCols chr pos).1 < f.textCols := advance_col on.1
      have row : (advance f.textCols chr pos).2 ≤ pos.2 + 1 := advance_row (Nat.zero_lt_of_lt on.1)
      have moved := drawn.moveTo (advance f.textCols chr pos)
      have rows (q : Nat × Nat) : ({ d with cursorPos := q } : Console).textRows = f.textRows := drawn.rows.symm
      have cols : d.textCols = f.textCols := drawn.cols.symm
      simp only [if_true, rows, cols]
      by_cases full : (advance f.textCols chr pos).2 = f.textRows
      · have other : chr ≠ backspace := by
          rintro rfl
          have above : (back f.textCols pos).2 ≤ pos.2 := back_row
          rw [advance_back on.1] at full
          omega
        have none : {n | chr = backspace ∧ n = f.cursorBufferPos} = (∅ : Set (Nat × Nat)) :=
          Set.eq_empty_iff_forall_notMem.mpr fun n member => other member.1
        rw [none] at moved
        rw [if_pos full, if_pos full]
        refine (moved.scrollScreen 1).finish (fun n member => absurd member (Set.notMem_empty n)) ?_
        exact scrollScreen_inside inside.buffer column (by dsimp only; omega)
      · rw [if_neg full, if_neg full]
        exact moved.finish excused ⟨⟨column, by dsimp only; omega⟩, inside.buffer⟩

/-- No backspace of the loop changes more than its cell. -/
def ClearLoop (textRows textCols : Nat) (fg bg : Int) : (grid : Grid) → (pos : Nat × Nat) → List UInt8 → Prop
  | _, _, [] => True
  | grid, pos, chr :: str => pos.2 < textRows →
      (chr = backspace → Clear textRows textCols grid (back textCols pos) bg ∅) ∧
        ClearLoop textRows textCols fg bg (Framebuffer.draw textCols fg bg chr pos grid) (advance textCols chr pos) str

theorem Shows.printLoop (shows : c.Shows f ∅) (column : pos.1 < f.textCols)
    (clear : ClearLoop f.textRows f.textCols fg bg f.framebuffer pos str) :
    (Console.printLoop fg bg c pos str).2 = (Framebuffer.printLoop f.textRows f.textCols fg bg f.framebuffer pos str).2 ∧
      Shows (Console.printLoop fg bg c pos str).1
        { f with framebuffer := (Framebuffer.printLoop f.textRows f.textCols fg bg f.framebuffer pos str).1 } ∅ := by
  induction str generalizing c f pos with
  | nil => exact ⟨rfl, shows⟩
  | cons chr str ih =>
      rw [Console.printLoop, Framebuffer.printLoop]
      by_cases row : pos.2 < f.textRows
      · obtain ⟨first, rest⟩ := clear row
        have drawn := shows.draw (shows.onGrid.mpr ⟨column, row⟩) fg bg first
        have all : _ ∧ _ := ih drawn (advance_col column) rest
        rw [if_neg (not_le.mpr row), if_neg (not_le.mpr (shows.rows ▸ row)), ← shows.cols]
        exact all
      · have below : pos.2 ≥ c.textRows := by
          rw [← shows.rows]
          exact not_lt.mp row
        rw [if_pos (not_lt.mp row), if_pos below]
        exact ⟨rfl, shows⟩

end Console

/-! ## The calls of the driver -/

namespace Framebuffer

def setAttr (f : Framebuffer) (fg bg : Int) : Framebuffer := { f with currentFg := fg, currentBg := bg }

def cls (f : Framebuffer) (bg : Int) : Framebuffer := { f with framebuffer := fun _ => .filled bg, cursorPos := (0, 0) }

-- where the loop of `prints` starts
def opened (f : Framebuffer) (str : List UInt8) (offset : Int) (move : Bool) : Framebuffer × (Nat × Nat) :=
  let f := f.loadCursorBuffer
  let pos := f.posOf offset
  if move then (f.scrollScreen (f.scrollAmount pos str), (pos.1, pos.2 - f.scrollAmount pos str)) else (f, pos)

end Framebuffer

inductive Call
  | printc (chr : UInt8) (offset fg bg : Int) (move : Bool)
  | prints (str : List UInt8) (offset fg bg : Int) (move : Bool)
  | setAttr (fg bg : Int)
  | cls (bg : Int)

def Framebuffer.call (f : Framebuffer) : Call → Framebuffer
  | .printc chr offset fg bg move => f.printc chr offset fg bg move
  | .prints str offset fg bg move => f.prints str offset fg bg move
  | .setAttr fg bg => f.setAttr fg bg
  | .cls bg => f.cls bg

namespace Console

def call (c : Console) : Call → Console
  | .printc chr offset fg bg move => c.printc chr offset fg bg move
  | .prints str offset fg bg move => c.prints str offset fg bg move
  | .setAttr fg bg => c.setAttr fg bg
  | .cls bg => c.cls bg

/-- A call that prints to the grid, has its backspaces on clear cells and leaves the cursor on the screen. -/
def Fits (f : Framebuffer) : Call → Prop
  | .printc chr offset _ bg _ => ((f.posOf offset).1 < f.textCols ∧ (f.posOf offset).2 < f.textRows) ∧ (chr = backspace →
      Clear f.textRows f.textCols f.framebuffer (back f.textCols (f.posOf offset)) (f.bgOf bg) {f.cursorBufferPos})
  | .prints str offset fg bg move => (f.posOf offset).1 < f.textCols ∧ ClearLoop f.textRows f.textCols (f.fgOf fg) (f.bgOf bg)
      (f.opened str offset move).1.framebuffer (f.opened str offset move).2 str ∧
      (f.prints str offset fg bg move).cursorPos.2 < f.textRows
  | .setAttr _ _ => True
  | .cls _ => True

def FitAll : (f : Framebuffer) → List Call → Prop
  | _, [] => True
  | f, call :: calls => Fits f call ∧ FitAll (f.call call) calls

variable {c : Console} {f : Framebuffer} {pos : Nat × Nat} {fg bg : Int} {str : List UInt8} {n rows cols : Nat} {grid : Grid}

def opened (c : Console) (str : List UInt8) (offset : Int) (move : Bool) : Console × (Nat × Nat) :=
  let c := c.loadCursorBuffer
  let pos := c.posOf offset
  if move then (c.scrollScreen (c.scrollAmount pos str), (pos.1, pos.2 - c.scrollAmount pos str)) else (c, pos)

theorem prints_eq (c : Console) (nonempty : str ≠ []) (offset fg bg : Int) (move : Bool) : c.prints str offset fg bg move =
    let (d, pos) := printLoop (c.loadCursorBuffer.fgOf fg) (c.loadCursorBuffer.bgOf bg) (c.opened str offset move).1
      (c.opened str offset move).2 str
    (if move then { d with cursorPos := pos } else d).drawCursor false := by
  rw [prints, if_neg nonempty]
  cases move <;> rfl

theorem prints_grid (f : Framebuffer) (nonempty : str ≠ []) (offset fg bg : Int) (move : Bool) : f.prints str offset fg bg move =
    let (grid, pos) := Framebuffer.printLoop f.textRows f.textCols (f.fgOf fg) (f.bgOf bg) (f.opened str offset move).1.framebuffer
      (f.opened str offset move).2 str
    (if move then { (f.opened str offset move).1 with framebuffer := grid, cursorPos := pos }
      else { (f.opened str offset move).1 with framebuffer := grid }).drawCursor false := by
  have others := scrollScreen_changes f.loadCursorBuffer (f.loadCursorBuffer.scrollAmount (f.loadCursorBuffer.posOf offset) str)
  rw [Framebuffer.prints, if_neg nonempty]
  cases move with
  | false => rfl
  | true =>
      dsimp only [Framebuffer.opened]
      simp only [if_true]
      rw [others]
      rfl

theorem Shows.opened (shows : c.Shows f ∅) (inside : Inside f) (str : List UInt8) (offset : Int) (move : Bool) :
    (c.opened str offset move).2 = (f.opened str offset move).2 ∧
      Shows (c.opened str offset move).1 (f.opened str offset move).1 ∅ := by
  have loaded := shows.loadCursorBuffer (shows.bufferOn inside)
  have amount (pos : Nat × Nat) : c.loadCursorBuffer.scrollAmount pos str = f.loadCursorBuffer.scrollAmount pos str := by
    rw [Console.scrollAmount, Framebuffer.scrollAmount, loaded.rows, loaded.cols]
  rw [Console.opened, Framebuffer.opened]
  cases move with
  | false => exact ⟨loaded.posOf offset, loaded⟩
  | true =>
      simp only [if_true]
      rw [loaded.posOf offset, amount]
      exact ⟨rfl, loaded.scrollScreen _⟩

theorem printLoop_column (rows : Nat) (fg bg : Int) (grid : Grid) (str : List UInt8) (column : pos.1 < cols) :
    (Framebuffer.printLoop rows cols fg bg grid pos str).2.1 < cols := by
  induction str generalizing grid pos with
  | nil => exact column
  | cons chr str ih =>
      rw [Framebuffer.printLoop]
      split_ifs
      · exact column
      · exact ih _ (advance_col column)

theorem scrollScreen_bufferPos (row : f.cursorBufferPos.2 < f.textRows) :
    (f.scrollScreen n).cursorBufferPos = (f.cursorBufferPos.1, f.cursorBufferPos.2 - n) := by
  rw [Framebuffer.scrollScreen, moved_up, moved_up]
  split_ifs with none whole
  · rw [none, Nat.sub_zero]
  · exact Prod.ext rfl (by dsimp only; omega)
  · rfl

theorem opened_keeps (inside : Inside f) (str : List UInt8) (offset : Int) (move : Bool) :
    ((f.opened str offset move).1.textRows = f.textRows ∧ (f.opened str offset move).1.textCols = f.textCols) ∧
      ((f.opened str offset move).1.cursorBufferPos.1 < f.textCols ∧ (f.opened str offset move).1.cursorBufferPos.2 < f.textRows) ∧
      (f.opened str offset move).2.1 = (f.posOf offset).1 ∧
      (move = false → (f.opened str offset move).1.cursorPos = f.cursorPos) := by
  cases move with
  | false => exact ⟨⟨rfl, rfl⟩, inside.buffer, rfl, fun _ => rfl⟩
  | true =>
      have others := scrollScreen_changes f.loadCursorBuffer
        (f.loadCursorBuffer.scrollAmount (f.loadCursorBuffer.posOf offset) str)
      have buffer := scrollScreen_bufferPos (f := f.loadCursorBuffer) (n := f.loadCursorBuffer.scrollAmount
        (f.loadCursorBuffer.posOf offset) str) inside.buffer.2
      rw [Framebuffer.opened]
      simp only [if_true]
      refine ⟨⟨?_, ?_⟩, ?_, rfl, fun no => by cases no⟩
      · rw [others]
        rfl
      · rw [others]
        rfl
      · rw [buffer]
        exact ⟨inside.buffer.1, (Nat.sub_le _ _).trans_lt inside.buffer.2⟩

theorem Shows.prints (shows : c.Shows f ∅) (inside : Inside f) {offset : Int} {move : Bool}
    (fits : Fits f (.prints str offset fg bg move)) :
    Shows (c.prints str offset fg bg move) (f.prints str offset fg bg move) ∅ ∧ Inside (f.prints str offset fg bg move) := by
  by_cases nonempty : str = []
  · rw [Console.prints, Framebuffer.prints, if_pos nonempty, if_pos nonempty]
    exact ⟨shows, inside⟩
  obtain ⟨column, clear, row⟩ := fits
  have loaded := shows.loadCursorBuffer (shows.bufferOn inside)
  obtain ⟨pos, opened⟩ := shows.opened inside str offset move
  obtain ⟨⟨rows, cols⟩, buffer, left, still⟩ := opened_keeps inside str offset move
  have foreground : c.loadCursorBuffer.fgOf fg = f.fgOf fg := loaded.fgOf fg
  have background : c.loadCursorBuffer.bgOf bg = f.bgOf bg := loaded.bgOf bg
  rw [← rows, ← cols] at clear
  rw [← left, ← cols] at column
  have looped := opened.printLoop column clear
  have last := printLoop_column (f.opened str offset move).1.textRows (f.fgOf fg) (f.bgOf bg)
    (f.opened str offset move).1.framebuffer str column
  rw [prints_grid f nonempty] at row ⊢
  rw [prints_eq c nonempty, foreground, background, pos]
  rw [← rows, ← cols] at row ⊢
  have none : ∀ n ∈ (∅ : Set (Nat × Nat)), false = true ∧ n = (f.opened str offset move).1.cursorBufferPos :=
    fun n member => absurd member (Set.notMem_empty n)
  generalize (f.opened str offset move).1 = g at *
  generalize Framebuffer.printLoop g.textRows g.textCols (f.fgOf fg) (f.bgOf bg) g.framebuffer (f.opened str offset move).2
    str = r' at *
  generalize Console.printLoop (f.fgOf fg) (f.bgOf bg) (c.opened str offset move).1 (f.opened str offset move).2 str = r at *
  obtain ⟨d, place⟩ := r
  obtain ⟨grid, place'⟩ := r'
  obtain ⟨same, drawn⟩ := looped
  dsimp only at same drawn last row ⊢
  rw [same]
  rw [← rows, ← cols] at buffer
  cases move with
  | false =>
      have cursor := still rfl
      exact drawn.finish none ⟨by dsimp only; rw [cursor, rows, cols]; exact inside.cursor, buffer⟩
  | true => exact (drawn.moveTo place').finish none ⟨⟨last, row⟩, buffer⟩

theorem Shows.cls (shows : c.Shows f ∅) (inside : Inside f) (bg : Int) : Shows (c.cls bg) (f.cls bg) ∅ ∧ Inside (f.cls bg) := by
  obtain ⟨column, row⟩ := inside.cursor
  have first : 0 < f.textCols ∧ 0 < f.textRows := ⟨Nat.zero_lt_of_lt column, Nat.zero_lt_of_lt row⟩
  have corner : c.OnGrid (0, 0) := shows.onGrid.mpr first
  have width : 0 < c.screen.fbWidth := (Nat.mul_pos corner.1 c.font.wide).trans_le (Nat.div_mul_le_self _ _)
  have height : 0 < c.screen.fbHeight := (Nat.mul_pos corner.2 c.font.high).trans_le (Nat.div_mul_le_self _ _)
  have paints := Screen.cls_paints width height bg
  refine ⟨(shows.redraw paints.size fun p on _ => ?_).moveTo (0, 0), first, inside.buffer⟩
  exact paints.inside _ _ on.onScreen (Set.mem_univ _)

theorem Shows.call {call : Call} (shows : c.Shows f ∅) (inside : Inside f) (fits : Fits f call) :
    Shows (c.call call) (f.call call) ∅ ∧ Inside (f.call call) := by
  cases call with
  | printc chr offset fg bg move => exact shows.printc inside fg bg move fits.1 fits.2
  | prints str offset fg bg move => exact shows.prints inside fits
  | setAttr fg bg =>
      exact ⟨⟨rfl, rfl, shows.rows, shows.cols, shows.cursor, shows.bufferPos, shows.pixels, shows.buffer⟩, inside.cursor,
        inside.buffer⟩
  | cls bg => exact shows.cls inside bg

/-- Whatever is printed, the pixels show the cells. -/
theorem calls_show (shows : c.Shows f ∅) (inside : Inside f) {calls : List Call} (fit : FitAll f calls) :
    Shows (calls.foldl Console.call c) (calls.foldl Framebuffer.call f) ∅ := by
  induction calls generalizing c f with
  | nil => exact shows
  | cons call calls ih =>
      obtain ⟨first, rest⟩ := fit
      obtain ⟨drawn, kept⟩ := shows.call inside first
      exact ih drawn kept rest

-- four by four pixels, and two by two cells
def boxes : Font := ⟨fun _ => 0x60, 32, 4, 4, 4, by decide, by decide, by decide, by decide⟩

def blank : Console := ⟨Screen.tile, boxes, 7, 0, (0, 0), fun _ => 0, (0, 0)⟩

def blankCells : Framebuffer := ⟨fun _ => .filled 0, 7, 0, 2, 2, (0, 0), .filled 0, (0, 0)⟩

-- a letter, a string on a new line and a line that scrolls
def letters : List Call := [.printc 0x61 (-1) 5 (-1) true, .prints [0x0a, 0x62] (-1) (-1) 3 true, .printc 0x0a (-1) (-1) (-1) true]

theorem calls_show_letters : Shows (letters.foldl Console.call blank) (letters.foldl Framebuffer.call blankCells) ∅ := by
  have dark (p : Nat × Nat) : blank.screen.getPixel p.1 p.2 = 0 := Screen.getPixel_blank (s := Screen.tile) p.1 p.2
  have shows : blank.Shows blankCells ∅ := by
    refine ⟨rfl, rfl, rfl, rfl, rfl, rfl, fun p _ _ => ?_, fun o _ => ?_⟩
    · rw [dark]
      exact (Screen.shown_zero _).symm
    · exact (Screen.shown_zero _).symm
  have printed {chr : UInt8} {P : Prop} (other : chr ≠ backspace) : chr = backspace → P := fun same => absurd same other
  refine calls_show shows ⟨⟨by decide, by decide⟩, ⟨by decide, by decide⟩⟩ ⟨⟨⟨by decide, by decide⟩, printed (by decide)⟩,
    ⟨by decide, ?_, by decide⟩, ⟨⟨by decide, by decide⟩, printed (by decide)⟩, trivial⟩
  exact fun _ => ⟨printed (by decide), fun _ => ⟨printed (by decide), trivial⟩⟩

end Console
end Kerosene.Video
