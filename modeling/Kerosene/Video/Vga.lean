import Kerosene.Lib.Terminal

/-!
# The text screen of the VGA driver

`video_vga_prints` scrolls once before it prints, `video_vga_printc` whenever a character leaves the last row.
-/

namespace Kerosene.Video
open Lib

structure Cell where
  chr : UInt8
  attr : UInt8
  deriving DecidableEq

-- a cell of `vidMem` is two bytes, and the cursor a register of 16 bits
structure Vga where
  vidMem : Nat → Cell
  currentAttr : UInt8
  textRows : Nat
  textCols : Nat
  cursor : UInt16

def blank : UInt8 := 0x20
def newline : UInt8 := 0x0a
def backspace : UInt8 := 0x08

namespace Vga

def screenChars (v : Vga) : Nat := v.textRows * v.textCols

def getCursor (v : Vga) : Nat := v.cursor.toNat

def setCursor (v : Vga) (offset : Nat) : Vga := { v with cursor := UInt16.ofNat offset }

def cls (v : Vga) (bg : UInt8) : Vga :=
  { v with vidMem := fun i => if i < v.screenChars then ⟨blank, (bg &&& 0xf) <<< 4⟩ else v.vidMem i }.setCursor 0

-- the `memmove` and the loop behind it
def shiftCells (v : Vga) (amount : Nat) : Nat → Cell := fun i =>
  if i < v.screenChars - amount * v.textCols then v.vidMem (i + amount * v.textCols)
  else if i < v.screenChars then ⟨blank, v.currentAttr⟩ else v.vidMem i

def scrollScreen (v : Vga) (amount : Nat) : Vga :=
  if amount ≥ v.textRows then v.cls (v.currentAttr >>> 4)
  else
    let shiftCells := amount * v.textCols
    let currentPos := v.getCursor
    { v with vidMem := v.shiftCells amount }.setCursor (if currentPos < shiftCells then 0 else currentPos - shiftCells)

/-- Where `printc` leaves the offset, which is all it does when it only calculates. -/
def advance (textCols : Nat) (chr : UInt8) (offset : Nat) : Nat :=
  if chr = newline then offset + (textCols - offset % textCols)
  else if chr = backspace then if offset > 0 then offset - 1 else offset
  else offset + 1

def draw (attr : UInt8) (chr : UInt8) (offset : Nat) (cells : Nat → Cell) : Nat → Cell :=
  if chr = newline then cells
  else if chr = backspace then
    let offset := if offset > 0 then offset - 1 else offset
    Function.update cells offset ⟨blank, (cells offset).attr⟩
  else Function.update cells offset ⟨chr, attr⟩

def printcAttr (v : Vga) (fg bg : Int) : UInt8 :=
  let attr := v.currentAttr
  let attr : UInt8 := if fg ≥ 0 then (attr &&& 0x0f) ||| UInt8.ofNat fg.toNat else attr
  if bg ≥ 0 then (attr &&& 0xf0) ||| UInt8.ofNat bg.toNat else attr

def printsAttr (v : Vga) (fg bg : Int) : UInt8 :=
  let attr := v.currentAttr
  let attr : UInt8 := if fg ≥ 0 then (attr &&& 0xf0) ||| (UInt8.ofNat fg.toNat &&& 0x0f) else attr
  let high : UInt8 := (UInt8.ofNat bg.toNat &&& 0x0f) <<< 4
  if bg ≥ 0 then (attr &&& 0x0f) ||| high else attr

def printc (v : Vga) (chr : UInt8) (offset fg bg : Int) (move : Bool) : Vga :=
  if chr = 0 then v
  else
    let offset := if offset < 0 then v.getCursor else offset.toNat
    let attr := v.printcAttr fg bg
    let v := { v with vidMem := draw attr chr offset v.vidMem }
    let offset := advance v.textCols chr offset
    if move then
      let v := v.setCursor offset
      if offset > v.screenChars - 1 then v.scrollScreen 1 else v
    else v

-- the loop that prints, up to the end of the screen
def printLoop (attr : UInt8) : (v : Vga) → (offset : Nat) → List UInt8 → Vga × Nat
  | v, offset, [] => (v, offset)
  | v, offset, chr :: str =>
      if offset ≥ v.screenChars then (v, offset)
      else printLoop attr { v with vidMem := draw attr chr offset v.vidMem } (advance v.textCols chr offset) str

/-- The rows that `prints` scrolls by. -/
def rowsNeeded (v : Vga) (offset : Nat) (str : List UInt8) : Nat :=
  let phantom := str.foldl (fun phantom chr => advance v.textCols chr phantom) offset
  if phantom ≥ v.screenChars then phantom / v.textCols - v.textRows + 1 else 0

def prints (v : Vga) (str : List UInt8) (offset fg bg : Int) (move : Bool) : Vga :=
  if str = [] then v
  else
    let offset := if offset < 0 then v.getCursor else offset.toNat
    let attr := v.printsAttr fg bg
    if move then
      let rowsNeeded := v.rowsNeeded offset str
      let (v, offset) := if rowsNeeded > 0 then (v.scrollScreen rowsNeeded, offset - rowsNeeded * v.textCols) else (v, offset)
      let (v, offset) := printLoop attr v offset str
      v.setCursor offset
    else (printLoop attr v offset str).1

/-! ## The screen as a terminal -/

def terminal (v : Vga) (attr : UInt8) : Terminal Nat (Nat → Cell) UInt8 where
  row offset := offset / v.textCols
  down n offset := offset + n * v.textCols
  raise offset := offset - v.textCols
  next := advance v.textCols
  put := draw attr
  up n cells := { v with vidMem := cells }.shiftCells n

-- a backspace at the first cell
def Blocked (chr : UInt8) (offset : Nat) : Prop := chr = backspace ∧ offset = 0

variable {v : Vga} {attr chr : UInt8} {offset n : Nat} {cells : Nat → Cell}

theorem advance_down (free : ¬ Blocked chr offset) :
    advance v.textCols chr (offset + n * v.textCols) = advance v.textCols chr offset + n * v.textCols := by
  rw [advance, advance]
  split_ifs with line back more
  · rw [Nat.add_mul_mod_self_right, Nat.add_right_comm]
  · omega
  · exact absurd ⟨back, by omega⟩ free
  all_goals omega

theorem advance_row (cols : 0 < v.textCols) : advance v.textCols chr offset / v.textCols ≤ offset / v.textCols + 1 := by
  have split := Nat.div_add_mod offset v.textCols
  have rest := Nat.mod_lt offset cols
  have bound : advance v.textCols chr offset < (offset / v.textCols + 1 + 1) * v.textCols := by
    rw [Nat.add_mul, Nat.add_mul, Nat.one_mul, Nat.mul_comm]
    rw [advance]
    split_ifs <;> omega
  exact Nat.le_of_lt_succ (Nat.div_lt_of_lt_mul (by rwa [Nat.mul_comm]))

theorem up_eq (i : Nat) : (v.terminal attr).up n cells i =
    if i < v.screenChars - n * v.textCols then cells (i + n * v.textCols)
    else if i < v.screenChars then ⟨blank, v.currentAttr⟩ else cells i := rfl

theorem up_zero : (v.terminal attr).up 0 cells = cells := by
  funext i
  rw [up_eq, Nat.zero_mul, Nat.sub_zero, Nat.add_zero]
  split_ifs <;> rfl

theorem up_up {m : Nat} (few : m + n < v.textRows) :
    (v.terminal attr).up m ((v.terminal attr).up n cells) = (v.terminal attr).up (m + n) cells := by
  have room : (m + n) * v.textCols ≤ v.screenChars := Nat.mul_le_mul_right _ few.le
  funext i
  rw [up_eq, up_eq, up_eq, up_eq]
  rw [Nat.add_mul] at *
  generalize v.screenChars = total at *
  generalize m * v.textCols = a at *
  generalize n * v.textCols = b at *
  rw [← Nat.add_assoc]
  split_ifs <;> first | rfl | omega

theorem up_update {c : Cell} (inside : offset + n * v.textCols < v.screenChars) :
    (v.terminal attr).up n (Function.update cells (offset + n * v.textCols) c) =
      Function.update ((v.terminal attr).up n cells) offset c := by
  funext i
  rw [up_eq, Function.update_apply, Function.update_apply, Function.update_apply, up_eq]
  generalize v.screenChars = total at *
  generalize n * v.textCols = b at *
  split_ifs <;> first | rfl | omega

theorem up_apply (inside : offset + n * v.textCols < v.screenChars) :
    (v.terminal attr).up n cells offset = cells (offset + n * v.textCols) :=
  if_pos (show offset < v.screenChars - n * v.textCols by omega)

theorem draw_up (free : ¬ Blocked chr offset) (inside : offset + n * v.textCols < v.screenChars) :
    (v.terminal attr).up n (draw attr chr (offset + n * v.textCols) cells) =
      draw attr chr offset ((v.terminal attr).up n cells) := by
  rw [draw, draw]
  split_ifs with line back more positive
  · rfl
  · have before : offset + n * v.textCols - 1 = offset - 1 + n * v.textCols := by omega
    dsimp only
    rw [before, up_update (by omega), up_apply (by omega)]
  · exact absurd ⟨back, by omega⟩ free
  · omega
  · exact absurd ⟨back, by omega⟩ free
  · exact up_update inside

theorem lawful (cols : 0 < v.textCols) : (v.terminal attr).Lawful v.textRows Blocked where
  row_down n p := Nat.add_mul_div_right p n cols
  down_zero p := by
    change p + 0 * v.textCols = p
    omega
  raise_down n p := by
    change p + (n + 1) * v.textCols - v.textCols = p + n * v.textCols
    rw [Nat.succ_mul]
    omega
  next_down n p key free := advance_down free
  row_next p key := advance_row cols
  up_zero cells := up_zero
  up_up m n cells few := up_up few
  put_up n p key cells free fits := by
    refine draw_up free ?_
    have row : p / v.textCols + n < v.textRows := fits
    rw [← Nat.add_mul_div_right p n cols] at row
    exact (Nat.div_lt_iff_lt_mul cols).mp row

end Vga
end Kerosene.Video
