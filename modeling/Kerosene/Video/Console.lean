import Kerosene.Video.Drawing
import Kerosene.Video.Framebuffer

/-!
# The console in the framebuffer

`printc`, the scrolling and the cursor, as they change the bytes of the framebuffer.
-/

namespace Kerosene.Video
open Lib Framebuffer

/-- A font whose glyphs have a byte for every eight pixels of a line. A glyph fits into the buffer of the cursor. -/
structure Font where
  data : Int → UInt8
  headersize : Nat
  width : Nat
  height : Nat
  bytesperglyph : Nat
  wide : 0 < width
  high : 0 < height
  glyphs : bytesperglyph = height * ((width + 7) / 8)
  buffered : width * height ≤ 1024

-- byte `i` of `psf_get_glyph`: a `char` is signed
def Font.glyph (font : Font) (chr : UInt8) (i : Nat) : UInt8 :=
  font.data (font.headersize + chr.toInt8.toInt * font.bytesperglyph + i)

structure Console where
  screen : Screen
  font : Font
  currentFg : Int
  currentBg : Int
  -- the column and the row
  cursorPos : Nat × Nat
  cursorBuffer : Nat → Int
  cursorBufferPos : Nat × Nat

namespace Console

-- as `video_framebuffer_set_font_size` sets them
def textCols (c : Console) : Nat := c.screen.fbWidth / c.font.width

def textRows (c : Console) : Nat := c.screen.fbHeight / c.font.height

def rgb (r g b : Nat) : Int := (r <<< 16 ||| g <<< 8 ||| b : Nat)

-- pixel `i` of line `j` in the character cell
def plotIn (s : Screen) (font : Font) (pos : Nat × Nat) (i j : Nat) (color : Int) : Screen :=
  s.plot (i + pos.1 * font.width : Nat) (j + pos.2 * font.height : Nat) color

def getIn (s : Screen) (font : Font) (pos : Nat × Nat) (i j : Nat) : Int :=
  s.getPixel (i + pos.1 * font.width) (j + pos.2 * font.height)

/-! ## Scrolling -/

def moveBytes (m : Bytes) (dst src n : Nat) : Bytes := fun a => if dst ≤ a ∧ a < dst + n then m (src + (a - dst)) else m a

def clearBytes (m : Bytes) (dst n : Nat) : Bytes := fun a => if dst ≤ a ∧ a < dst + n then 0 else m a

def scrollScreen (c : Console) (amount : Nat) : Console :=
  if amount = 0 then c
  else if amount ≥ c.textRows then
    { c with
      screen := c.screen.withMemory (clearBytes c.screen.framebuffer 0 (c.textRows * c.font.height * c.screen.fbPitch))
      cursorPos := (c.cursorPos.1, 0)
      cursorBufferPos := (c.cursorBufferPos.1, 0) }
  else
    let bytesPerRow := c.font.height * c.screen.fbPitch
    let bytesToMove := (c.textRows - amount) * bytesPerRow
    let offsetBytes := amount * bytesPerRow
    { c with
      screen := c.screen.withMemory (clearBytes (moveBytes c.screen.framebuffer 0 offsetBytes bytesToMove) bytesToMove offsetBytes)
      cursorPos := (c.cursorPos.1, if c.cursorPos.2 ≥ amount then c.cursorPos.2 - amount else 0)
      cursorBufferPos := (c.cursorBufferPos.1, if c.cursorBufferPos.2 ≥ amount then c.cursorBufferPos.2 - amount else 0) }

/-! ## The cursor -/

def cursorColor : Int := rgb 180 170 170

def loadPixel (i j : Nat) (c : Console) : Console :=
  { c with screen := plotIn c.screen c.font c.cursorBufferPos i j (c.cursorBuffer (j * c.font.width + i)) }

def drawPixel (loadBuffer : Bool) (i j : Nat) (c : Console) : Console :=
  let c := if loadBuffer then c.loadPixel i j else c
  { c with
    cursorBuffer := Function.update c.cursorBuffer (j * c.font.width + i) (getIn c.screen c.font c.cursorPos i j)
    screen := plotIn c.screen c.font c.cursorPos i j cursorColor }

def loadCursorBuffer (c : Console) : Console := scan (fun i j c => loadPixel i j c) c.font.width c.font.height c

def drawCursor (c : Console) (loadBuffer : Bool) : Console :=
  let c := scan (fun i j c => drawPixel loadBuffer i j c) c.font.width c.font.height c
  { c with cursorBufferPos := c.cursorPos }

/-! ## Printing -/

-- the bits of a byte of the glyph, the highest one first
def plotBits (font : Font) (byte : UInt8) (pos : Nat × Nat) (col line : Nat) (fg bg : Int) : (count : Nat) → Screen → Screen
  | 0, s => s
  | j + 1, s =>
      plotIn (plotBits font byte pos col line fg bg j s) font pos (j + col) line (if byte.toNat.testBit (7 - j) then fg else bg)

def glyphLoop (font : Font) (chr : UInt8) (pos : Nat × Nat) (fg bg : Int) : (count i col line : Nat) → Screen → Screen
  | 0, _, _, _, s => s
  | count + 1, i, col, line, s =>
      let remainWidth := if font.width - col > 8 then 8 else font.width - col
      let s := plotBits font (font.glyph chr i) pos col line fg bg remainWidth s
      if col + remainWidth ≥ font.width then glyphLoop font chr pos fg bg count (i + 1) 0 (line + 1) s
      else glyphLoop font chr pos fg bg count (i + 1) (col + remainWidth) line s

-- what `printc` draws; where it leaves the position is `advance`
def draw (c : Console) (fg bg : Int) (chr : UInt8) (pos : Nat × Nat) : Console :=
  if chr = newline then c
  else if chr = backspace then
    let (x, y) := back c.textCols pos
    { c with
      screen := c.screen.fillRectangle (x * c.font.width : Nat) (y * c.font.height : Nat) ((x + 1) * c.font.width : Nat)
        ((y + 1) * c.font.height : Nat) bg }
  else { c with screen := glyphLoop c.font chr pos fg bg c.font.bytesperglyph 0 0 0 c.screen }

def fgOf (c : Console) (fg : Int) : Int := if fg < 0 then c.currentFg else fg

def bgOf (c : Console) (bg : Int) : Int := if bg < 0 then c.currentBg else bg

def posOf (c : Console) (offset : Int) : Nat × Nat :=
  if offset ≥ 0 then (offset.toNat % c.textCols, offset.toNat / c.textCols) else c.cursorPos

def printc (c : Console) (chr : UInt8) (offset fg bg : Int) (move : Bool) : Console :=
  if chr = 0 then c
  else
    let pos := c.posOf offset
    let c := c.draw (c.fgOf fg) (c.bgOf bg) chr pos
    let c :=
      if move then
        let c := { c with cursorPos := advance c.textCols chr pos }
        if c.cursorPos.2 = c.textRows then c.scrollScreen 1 else c
      else c
    c.drawCursor (chr = newline ∨ chr = backspace)

def printLoop (fg bg : Int) : (c : Console) → (pos : Nat × Nat) → List UInt8 → Console × (Nat × Nat)
  | c, pos, [] => (c, pos)
  | c, pos, chr :: str =>
      if pos.2 ≥ c.textRows then (c, pos)
      else printLoop fg bg (c.draw fg bg chr pos) (advance c.textCols chr pos) str

def scrollAmount (c : Console) (pos : Nat × Nat) (str : List UInt8) : Nat :=
  let phantom := str.foldl (fun phantom chr => advance c.textCols chr phantom) pos
  if phantom.2 ≥ c.textRows then phantom.2 - c.textRows + 1 else 0

def prints (c : Console) (str : List UInt8) (offset fg bg : Int) (move : Bool) : Console :=
  if str = [] then c
  else
    let c := c.loadCursorBuffer
    let fg := c.fgOf fg
    let bg := c.bgOf bg
    let pos := c.posOf offset
    let (c, pos) :=
      if move then
        let scrollAmount := c.scrollAmount pos str
        (c.scrollScreen scrollAmount, (pos.1, pos.2 - scrollAmount))
      else (c, pos)
    let (c, pos) := printLoop fg bg c pos str
    let c := if move then { c with cursorPos := pos } else c
    c.drawCursor false

def cls (c : Console) (bg : Int) : Console := { c with screen := c.screen.cls bg, cursorPos := (0, 0) }

def setAttr (c : Console) (fg bg : Int) : Console := { c with currentFg := fg, currentBg := bg }

end Console
end Kerosene.Video
