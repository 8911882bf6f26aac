import Kerosene.Lib.Terminal

/-!
# The text of the framebuffer driver

The pixels are taken together to the cells of the text grid. The cell under the cursor is covered by it, and kept in a buffer.
-/

namespace Kerosene.Video
open Lib

inductive Shown
  | glyph (chr : UInt8) (fg bg : Int)
  | filled (color : Int)
  | cursor
  deriving DecidableEq

abbrev Grid := Nat × Nat → Shown

structure Framebuffer where
  framebuffer : Grid
  currentFg : Int
  currentBg : Int
  textRows : Nat
  textCols : Nat
  -- the column and the row
  cursorPos : Nat × Nat
  cursorBuffer : Shown
  cursorBufferPos : Nat × Nat

namespace Framebuffer

/-! ## Scrolling -/

-- the `memmove` and the `memset` behind it
def shiftRows (textRows amount : Nat) (grid : Grid) : Grid := fun (x, y) =>
  if y < textRows - amount then grid (x, y + amount) else if y < textRows then .filled 0 else grid (x, y)

def scrollScreen (f : Framebuffer) (amount : Nat) : Framebuffer :=
  if amount = 0 then f
  else if amount ≥ f.textRows then
    { f with
      framebuffer := fun (x, y) => if y < f.textRows then .filled 0 else f.framebuffer (x, y)
      cursorPos := (f.cursorPos.1, 0)
      cursorBufferPos := (f.cursorBufferPos.1, 0) }
  else
    { f with
      framebuffer := shiftRows f.textRows amount f.framebuffer
      cursorPos := (f.cursorPos.1, if f.cursorPos.2 ≥ amount then f.cursorPos.2 - amount else 0)
      cursorBufferPos := (f.cursorBufferPos.1, if f.cursorBufferPos.2 ≥ amount then f.cursorBufferPos.2 - amount else 0) }

/-! ## The cursor -/

def loadCursorBuffer (f : Framebuffer) : Framebuffer :=
  { f with framebuffer := Function.update f.framebuffer f.cursorBufferPos f.cursorBuffer }

def drawCursor (f : Framebuffer) (loadBuffer : Bool) : Framebuffer :=
  let f := if loadBuffer then f.loadCursorBuffer else f
  { f with
    cursorBuffer := f.framebuffer f.cursorPos
    framebuffer := Function.update f.framebuffer f.cursorPos .cursor
    cursorBufferPos := f.cursorPos }

/-! ## Printing -/

def newline : UInt8 := 0x0a
def backspace : UInt8 := 0x08

-- the cell that a backspace deletes
def back (textCols : Nat) (pos : Nat × Nat) : Nat × Nat := if pos.1 = 0 then (textCols - 1, pos.2 - 1) else (pos.1 - 1, pos.2)

-- before the line is wrapped
def moved (textCols : Nat) (chr : UInt8) (pos : Nat × Nat) : Nat × Nat :=
  if chr = newline then (0, pos.2 + 1) else if chr = backspace then back textCols pos else (pos.1 + 1, pos.2)

/-- Where `printc` leaves the position, which is all it does in calculate mode. -/
def advance (textCols : Nat) (chr : UInt8) (pos : Nat × Nat) : Nat × Nat :=
  let pos := moved textCols chr pos
  if pos.1 = textCols then (0, pos.2 + 1) else pos

def draw (textCols : Nat) (fg bg : Int) (chr : UInt8) (pos : Nat × Nat) (grid : Grid) : Grid :=
  if chr = newline then grid
  else if chr = backspace then Function.update grid (back textCols pos) (.filled bg)
  else Function.update grid pos (.glyph chr fg bg)

def fgOf (f : Framebuffer) (fg : Int) : Int := if fg < 0 then f.currentFg else fg

def bgOf (f : Framebuffer) (bg : Int) : Int := if bg < 0 then f.currentBg else bg

def posOf (f : Framebuffer) (offset : Int) : Nat × Nat :=
  if offset ≥ 0 then (offset.toNat % f.textCols, offset.toNat / f.textCols) else f.cursorPos

def printc (f : Framebuffer) (chr : UInt8) (offset fg bg : Int) (move : Bool) : Framebuffer :=
  if chr = 0 then f
  else
    let pos := f.posOf offset
    let f := { f with framebuffer := draw f.textCols (f.fgOf fg) (f.bgOf bg) chr pos f.framebuffer }
    let f :=
      if move then
        let f := { f with cursorPos := advance f.textCols chr pos }
        if f.cursorPos.2 = f.textRows then f.scrollScreen 1 else f
      else f
    f.drawCursor (chr = newline ∨ chr = backspace)

-- the loop that prints, up to the end of the screen
def printLoop (textRows textCols : Nat) (fg bg : Int) : (grid : Grid) → (pos : Nat × Nat) → List UInt8 → Grid × (Nat × Nat)
  | grid, pos, [] => (grid, pos)
  | grid, pos, chr :: str =>
      if pos.2 ≥ textRows then (grid, pos)
      else printLoop textRows textCols fg bg (draw textCols fg bg chr pos grid) (advance textCols chr pos) str

/-- The rows that `prints` scrolls by. -/
def scrollAmount (f : Framebuffer) (pos : Nat × Nat) (str : List UInt8) : Nat :=
  let phantom := str.foldl (fun phantom chr => advance f.textCols chr phantom) pos
  if phantom.2 ≥ f.textRows then phantom.2 - f.textRows + 1 else 0

def prints (f : Framebuffer) (str : List UInt8) (offset fg bg : Int) (move : Bool) : Framebuffer :=
  if str = [] then f
  else
    let f := f.loadCursorBuffer
    let fg := f.fgOf fg
    let bg := f.bgOf bg
    let pos := f.posOf offset
    let (f, pos) :=
      if move then
        let scrollAmount := f.scrollAmount pos str
        (f.scrollScreen scrollAmount, (pos.1, pos.2 - scrollAmount))
      else (f, pos)
    let (grid, pos) := printLoop f.textRows f.textCols fg bg f.framebuffer pos str
    let f := { f with framebuffer := grid }
    let f := if move then { f with cursorPos := pos } else f
    f.drawCursor false

/-! ## The screen as a terminal -/

def terminal (f : Framebuffer) (fg bg : Int) : Terminal (Nat × Nat) Grid UInt8 where
  row pos := pos.2
  down n pos := (pos.1, pos.2 + n)
  raise pos := (pos.1, pos.2 - 1)
  next := advance f.textCols
  put := draw f.textCols fg bg
  up := shiftRows f.textRows

-- a backspace at the first cell
def Blocked (chr : UInt8) (pos : Nat × Nat) : Prop := chr = backspace ∧ pos = (0, 0)

variable {f : Framebuffer} {fg bg : Int} {chr : UInt8} {pos : Nat × Nat} {n rows cols : Nat} {grid : Grid}

theorem shiftRows_eq (x y : Nat) : shiftRows rows n grid (x, y) =
    if y < rows - n then grid (x, y + n) else if y < rows then .filled 0 else grid (x, y) := rfl

theorem shiftRows_zero : shiftRows rows 0 grid = grid := by
  funext ⟨x, y⟩
  rw [shiftRows_eq, Nat.sub_zero, Nat.add_zero]
  split_ifs <;> rfl

theorem shiftRows_shiftRows {m : Nat} (few : m + n < rows) : shiftRows rows m (shiftRows rows n grid) = shiftRows rows (m + n) grid := by
  funext ⟨x, y⟩
  rw [shiftRows_eq, shiftRows_eq, shiftRows_eq, shiftRows_eq, ← Nat.add_assoc]
  split_ifs <;> first | rfl | omega

theorem shiftRows_update {s : Shown} {x y : Nat} (inside : y + n < rows) :
    shiftRows rows n (Function.update grid (x, y + n) s) = Function.update (shiftRows rows n grid) (x, y) s := by
  funext ⟨x', y'⟩
  rw [shiftRows_eq, Function.update_apply, Function.update_apply, Function.update_apply, shiftRows_eq]
  simp only [Prod.mk.injEq]
  split_ifs <;> first | rfl | omega

theorem back_down (free : pos ≠ (0, 0)) : back cols (pos.1, pos.2 + n) = ((back cols pos).1, (back cols pos).2 + n) := by
  obtain ⟨x, y⟩ := pos
  rw [back, back]
  dsimp only
  split_ifs with first
  · have positive : y ≠ 0 := fun zero => free (by rw [first, zero])
    have same : y + n - 1 = y - 1 + n := by omega
    rw [same]
  · rfl

theorem moved_down (free : ¬ Blocked chr pos) :
    moved cols chr (pos.1, pos.2 + n) = ((moved cols chr pos).1, (moved cols chr pos).2 + n) := by
  rw [moved, moved]
  split_ifs with line erase
  · rw [Nat.add_right_comm]
  · exact back_down fun zero => free ⟨erase, zero⟩
  · rfl

theorem advance_down (free : ¬ Blocked chr pos) :
    advance cols chr (pos.1, pos.2 + n) = ((advance cols chr pos).1, (advance cols chr pos).2 + n) := by
  rw [advance, advance, moved_down free]
  dsimp only
  split_ifs
  · rw [Nat.add_right_comm]
  · rfl

theorem back_row : (back cols pos).2 ≤ pos.2 := by
  rw [back]
  split_ifs
  · exact Nat.sub_le _ _
  · exact le_rfl

theorem moved_row (cols : Nat) (chr : UInt8) (pos : Nat × Nat) :
    (moved cols chr pos).2 ≤ pos.2 ∨ (moved cols chr pos).1 = 0 ∧ (moved cols chr pos).2 = pos.2 + 1 := by
  rw [moved]
  split_ifs
  · exact .inr ⟨rfl, rfl⟩
  · exact .inl back_row
  · exact .inl le_rfl

theorem advance_row (positive : 0 < cols) : (advance cols chr pos).2 ≤ pos.2 + 1 := by
  have row := moved_row cols chr pos
  rw [advance]
  by_cases wraps : (moved cols chr pos).1 = cols
  · rw [if_pos wraps]
    dsimp only
    omega
  · rw [if_neg wraps]
    omega

theorem draw_shiftRows (free : ¬ Blocked chr pos) (inside : pos.2 + n < rows) :
    shiftRows rows n (draw cols fg bg chr (pos.1, pos.2 + n) grid) = draw cols fg bg chr pos (shiftRows rows n grid) := by
  rw [draw, draw]
  split_ifs with line erase
  · rfl
  · have above : (back cols pos).2 ≤ pos.2 := back_row
    rw [back_down fun zero => free ⟨erase, zero⟩, shiftRows_update (by omega)]
  · exact shiftRows_update inside

theorem lawful (f : Framebuffer) (positive : 0 < f.textCols) (fg bg : Int) : (f.terminal fg bg).Lawful f.textRows Blocked where
  row_down _ _ := rfl
  down_zero _ := rfl
  raise_down _ _ := rfl
  next_down _ _ _ free := advance_down free
  row_next _ _ := advance_row positive
  up_zero _ := shiftRows_zero
  up_up _ _ _ few := shiftRows_shiftRows few
  put_up _ _ _ _ free fits := draw_shiftRows free fits

end Framebuffer
end Kerosene.Video
