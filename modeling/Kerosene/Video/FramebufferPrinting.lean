import Mathlib.Data.List.Induction
import Kerosene.Video.Framebuffer

/-!
# Printing a string and its characters on the framebuffer

What counts is the text that the cursor covers a cell of. Both ways leave the cursor drawn where it is.
-/

namespace Kerosene.Video
open Lib
namespace Framebuffer

/-- The characters one after the other. -/
def printcs (f : Framebuffer) (str : List UInt8) (fg bg : Int) : Framebuffer := str.foldl (fun f chr => f.printc chr (-1) fg bg true) f

-- the cursor is drawn where it is
def Synced (f : Framebuffer) : Prop := f.cursorBufferPos = f.cursorPos

def text (f : Framebuffer) : Grid := f.loadCursorBuffer.framebuffer

-- a screen with this cursor and this text under it
def at_ (f : Framebuffer) (s : (Nat × Nat) × Grid) : Framebuffer :=
  { f with
    cursorPos := s.1
    cursorBuffer := s.2 s.1
    framebuffer := Function.update s.2 s.1 .cursor
    cursorBufferPos := s.1 }

variable {f : Framebuffer} {fg bg : Int} {chr : UInt8} {str : List UInt8} {pos : Nat × Nat} {grid : Grid} {s : (Nat × Nat) × Grid}

theorem at_synced : (f.at_ s).Synced := rfl

theorem at_text : (f.at_ s).text = s.2 := by
  change Function.update (Function.update s.2 s.1 .cursor) s.1 (s.2 s.1) = s.2
  rw [Function.update_idem, Function.update_eq_self]

theorem text_eq (synced : f.Synced) : f.text = Function.update f.framebuffer f.cursorPos f.cursorBuffer := by
  rw [← synced]
  rfl

theorem drawCursor_false (f : Framebuffer) : f.drawCursor false = f.at_ (f.cursorPos, f.framebuffer) := rfl

theorem drawCursor_true (f : Framebuffer) : f.drawCursor true = f.at_ (f.cursorPos, f.text) := rfl

/-! ## One character -/

theorem moved_col {cols : Nat} (inside : pos.1 < cols) :
    (moved cols chr pos).1 ≤ cols ∧ (chr = backspace → (moved cols chr pos).1 < cols) := by
  rw [moved, back]
  split_ifs with line erase first
  · exact ⟨Nat.zero_le _, fun same => absurd (line.symm.trans same) (by decide)⟩
  · exact ⟨Nat.sub_le _ _, fun _ => by dsimp only; omega⟩
  · exact ⟨by dsimp only; omega, fun _ => by dsimp only; omega⟩
  · exact ⟨inside, fun same => absurd same erase⟩

theorem advance_col {cols : Nat} (inside : pos.1 < cols) : (advance cols chr pos).1 < cols := by
  have most : (moved cols chr pos).1 ≤ cols := (moved_col inside).1
  rw [advance]
  split_ifs with wraps
  · exact Nat.zero_lt_of_lt inside
  · exact Nat.lt_of_le_of_ne most wraps

theorem advance_back {cols : Nat} (inside : pos.1 < cols) : advance cols backspace pos = back cols pos := by
  have less : (back cols pos).1 < cols := (moved_col inside).2 rfl
  have same : moved cols backspace pos = back cols pos := rfl
  rw [advance, same, if_neg (by omega)]

-- what `printc` has changed before it scrolls and draws the cursor
def placed (f : Framebuffer) (pos : Nat × Nat) (grid : Grid) : Framebuffer := { f with framebuffer := grid, cursorPos := pos }

theorem scrollScreen_placed (rows : 2 ≤ f.textRows) : (f.placed pos grid).scrollScreen 1 =
    { f with
      framebuffer := shiftRows f.textRows 1 grid
      cursorPos := (pos.1, pos.2 - 1)
      cursorBufferPos := (f.cursorBufferPos.1, f.cursorBufferPos.2 - 1) } := by
  have few : ¬ 1 ≥ (f.placed pos grid).textRows := Nat.not_le.mpr rows
  have clamp (y : Nat) : (if y ≥ 1 then y - 1 else 0) = y - 1 := by split_ifs <;> omega
  rw [scrollScreen, if_neg (by decide), if_neg few, clamp, clamp]
  rfl

theorem printc_eq (f : Framebuffer) (nonzero : chr ≠ 0) : f.printc chr (-1) fg bg true =
    (if (advance f.textCols chr f.cursorPos).2 = f.textRows then
      (f.placed (advance f.textCols chr f.cursorPos)
        (draw f.textCols (f.fgOf fg) (f.bgOf bg) chr f.cursorPos f.framebuffer)).scrollScreen 1
    else f.placed (advance f.textCols chr f.cursorPos)
      (draw f.textCols (f.fgOf fg) (f.bgOf bg) chr f.cursorPos f.framebuffer)).drawCursor (chr = newline ∨ chr = backspace) := by
  rw [printc, if_neg nonzero]
  rfl

/-- Drawing the cursor after the character gives back the cell that was covered. -/
def Restores (f : Framebuffer) (chr : UInt8) : Prop :=
  if chr = newline then f.cursorPos.2 + 1 = f.textRows → 0 < f.cursorBufferPos.2 ∧ f.cursorBufferPos.2 < f.textRows
  else if chr = backspace then back f.textCols f.cursorPos ≠ f.cursorBufferPos
  else f.Synced

-- the cell that the cursor covers moves with the rest
theorem shiftRows_text (below : 0 < f.cursorBufferPos.2) (inside : f.cursorBufferPos.2 < f.textRows) :
    shiftRows f.textRows 1 f.text =
      Function.update (shiftRows f.textRows 1 f.framebuffer) (f.cursorBufferPos.1, f.cursorBufferPos.2 - 1) f.cursorBuffer := by
  have place : (f.cursorBufferPos.1, f.cursorBufferPos.2 - 1 + 1) = f.cursorBufferPos := Prod.ext rfl (Nat.sub_add_cancel below)
  have shifted : shiftRows f.textRows 1
      (Function.update f.framebuffer (f.cursorBufferPos.1, f.cursorBufferPos.2 - 1 + 1) f.cursorBuffer) =
      Function.update (shiftRows f.textRows 1 f.framebuffer) (f.cursorBufferPos.1, f.cursorBufferPos.2 - 1) f.cursorBuffer :=
    shiftRows_update (by omega)
  rw [place] at shifted
  exact shifted

theorem draw_backspace_text (apart : back f.textCols f.cursorPos ≠ f.cursorBufferPos) :
    draw f.textCols fg bg backspace f.cursorPos f.text =
      Function.update (draw f.textCols fg bg backspace f.cursorPos f.framebuffer) f.cursorBufferPos f.cursorBuffer := by
  rw [draw, draw, if_neg (by decide), if_pos rfl, if_neg (by decide), if_pos rfl]
  exact Function.update_comm apart.symm _ _ _

theorem draw_text (synced : f.Synced) (printed : ¬ (chr = newline ∨ chr = backspace)) :
    draw f.textCols fg bg chr f.cursorPos f.text = draw f.textCols fg bg chr f.cursorPos f.framebuffer := by
  rw [not_or] at printed
  rw [text_eq synced, draw, draw, if_neg printed.1, if_neg printed.2, if_neg printed.1, if_neg printed.2, Function.update_idem]

theorem type_eq (F B : Int) : (f.terminal F B).type f.textRows (pos, grid) chr =
    if f.textRows ≤ (advance f.textCols chr pos).2 then
      (((advance f.textCols chr pos).1, (advance f.textCols chr pos).2 - 1),
        shiftRows f.textRows 1 (draw f.textCols F B chr pos grid))
    else (advance f.textCols chr pos, draw f.textCols F B chr pos grid) := rfl

theorem printc_type (fg bg : Int) (nonzero : chr ≠ 0) (restores : f.Restores chr) (column : f.cursorPos.1 < f.textCols)
    (row : f.cursorPos.2 < f.textRows) (fits : (advance f.textCols chr f.cursorPos).2 < f.textRows ∨ 2 ≤ f.textRows) :
    f.printc chr (-1) fg bg true =
      f.at_ ((f.terminal (f.fgOf fg) (f.bgOf bg)).type f.textRows (f.cursorPos, f.text) chr) := by
  have most : (advance f.textCols chr f.cursorPos).2 ≤ f.cursorPos.2 + 1 := advance_row (Nat.zero_lt_of_lt column)
  have ends : (advance f.textCols chr f.cursorPos).2 = f.textRows ↔ f.textRows ≤ (advance f.textCols chr f.cursorPos).2 := by omega
  rw [printc_eq f nonzero, type_eq]
  by_cases full : f.textRows ≤ (advance f.textCols chr f.cursorPos).2
  · have rows := fits.resolve_left (Nat.not_lt.mpr full)
    rw [if_pos (ends.mpr full), if_pos full, scrollScreen_placed rows]
    by_cases control : chr = newline ∨ chr = backspace
    · rw [decide_eq_true control, drawCursor_true]
      rcases control with rfl | rfl
      · rw [Restores, if_pos rfl] at restores
        obtain ⟨below, inside⟩ := restores (by omega)
        have shifted : shiftRows f.textRows 1 (draw f.textCols (f.fgOf fg) (f.bgOf bg) newline f.cursorPos f.text) = _ :=
          shiftRows_text below inside
        rw [shifted]
        rfl
      · have above : (back f.textCols f.cursorPos).2 ≤ f.cursorPos.2 := back_row
        rw [advance_back column] at full
        omega
    · rw [not_or] at control
      rw [Restores, if_neg control.1, if_neg control.2] at restores
      rw [← not_or] at control
      rw [decide_eq_false control, drawCursor_false, draw_text restores control]
      rfl
  · rw [if_neg (fun same => full (ends.mp same)), if_neg full]
    by_cases control : chr = newline ∨ chr = backspace
    · rw [decide_eq_true control, drawCursor_true]
      rcases control with rfl | rfl
      · rfl
      · rw [Restores, if_neg (by decide), if_pos rfl] at restores
        rw [draw_backspace_text restores]
        rfl
    · rw [not_or] at control
      rw [Restores, if_neg control.1, if_neg control.2] at restores
      rw [← not_or] at control
      rw [decide_eq_false control, drawCursor_false, draw_text restores control]
      rfl

/-! ## The positions of a string -/

def walk (cols : Nat) (pos : Nat × Nat) (str : List UInt8) : Nat × Nat := str.foldl (fun pos chr => advance cols chr pos) pos

theorem terminal_walk (F B : Int) : (f.terminal F B).walk pos str = walk f.textCols pos str := rfl

theorem walk_append {cols : Nat} {rest : List UInt8} : walk cols pos (str ++ rest) = walk cols (walk cols pos str) rest :=
  List.foldl_append

theorem walk_col {cols : Nat} (inside : pos.1 < cols) : (walk cols pos str).1 < cols := by
  induction str generalizing pos with
  | nil => exact inside
  | cons chr str ih => exact ih (advance_col inside)

theorem advance_lag (chr : UInt8) {cols d : Nat} {low high : Nat × Nat} (column : low.1 = high.1) (lag : low.2 ≤ high.2 + d) :
    (advance cols chr low).1 = (advance cols chr high).1 ∧ (advance cols chr low).2 ≤ (advance cols chr high).2 + d := by
  have same : (moved cols chr low).1 = (moved cols chr high).1 ∧ (moved cols chr low).2 ≤ (moved cols chr high).2 + d := by
    rw [moved, moved, back, back, column]
    split_ifs
    · exact ⟨rfl, by dsimp only; omega⟩
    · exact ⟨rfl, by dsimp only; omega⟩
    · exact ⟨rfl, lag⟩
    · exact ⟨rfl, lag⟩
  rw [advance, advance, same.1]
  split_ifs
  · exact ⟨rfl, by dsimp only; omega⟩
  · exact same

theorem walk_lag (cols : Nat) (str : List UInt8) {d : Nat} {low high : Nat × Nat} (column : low.1 = high.1) (lag : low.2 ≤ high.2 + d) :
    (walk cols low str).1 = (walk cols high str).1 ∧ (walk cols low str).2 ≤ (walk cols high str).2 + d := by
  induction str generalizing low high with
  | nil => exact ⟨column, lag⟩
  | cons chr str ih =>
      obtain ⟨column, lag⟩ := advance_lag chr column lag
      exact ih column lag

theorem walk_lag_blocked {cols d : Nat} {low high : Nat × Nat} {q : List UInt8} (positive : 0 < cols) (column : low.1 = high.1)
    (lag : low.2 ≤ high.2 + (d + 1)) (before : q ++ [backspace] <+: str) (block : walk cols high q = (0, 0)) :
    (walk cols low str).2 ≤ (walk cols high str).2 + d := by
  obtain ⟨rest, rfl⟩ := before
  obtain ⟨column, lag⟩ := walk_lag cols q column lag
  rw [block] at column lag
  rw [walk_append, walk_append, walk_append, walk_append, block]
  generalize walk cols low q = pos at column lag
  have left : pos.1 < cols := by omega
  have above : advance cols backspace pos = (cols - 1, pos.2 - 1) := by rw [advance_back left, back, if_pos column]
  have stuck : advance cols backspace (0, 0) = (cols - 1, 0) := by rw [advance_back positive]; rfl
  refine (walk_lag cols rest ?_ ?_).2
  · exact (congrArg Prod.fst above).trans (congrArg Prod.fst stuck).symm
  · change (advance cols backspace pos).2 ≤ (advance cols backspace (0, 0)).2 + d
    rw [above, stuck]
    dsimp only at lag ⊢
    omega

/-! ## The whole string -/

-- where `prints` starts to print
def startOf (f : Framebuffer) (str : List UInt8) : Nat × Nat := (f.cursorPos.1, f.cursorPos.2 - f.scrollAmount f.cursorPos str)

/-- The string does not break off at the end of the screen. -/
def Stays (f : Framebuffer) (str : List UInt8) : Prop :=
  ∀ q, q <+: str → (walk f.textCols (f.startOf str) q).2 < f.textRows

-- the first character finds the cursor of earlier calls
def Starts (f : Framebuffer) (str : List UInt8) : Prop := ∀ chr ∈ str.head?, f.Restores chr

-- in a single column, the first cell is above itself
def Narrow (f : Framebuffer) (str : List UInt8) : Prop :=
  f.textCols = 1 ∧ ∃ q ≠ [], q ++ [backspace] <+: str ∧ walk f.textCols (f.startOf str) q = (0, 0)

theorem scrollAmount_eq (f : Framebuffer) (pos : Nat × Nat) (str : List UInt8) : f.scrollAmount pos str =
    if (walk f.textCols pos str).2 ≥ f.textRows then (walk f.textCols pos str).2 - f.textRows + 1 else 0 := rfl

theorem scrollAmount_pos (scrolls : f.scrollAmount pos str ≠ 0) :
    (walk f.textCols pos str).2 + 1 = f.textRows + f.scrollAmount pos str := by
  rw [scrollAmount_eq] at scrolls ⊢
  split_ifs at scrolls ⊢ with full
  · omega
  · exact absurd rfl scrolls

section
variable (stays : f.Stays str)
include stays

theorem Stays.room : f.scrollAmount f.cursorPos str ≤ f.cursorPos.2 := by
  by_contra more
  have scrolls : f.scrollAmount f.cursorPos str ≠ 0 := by omega
  have needed := scrollAmount_pos scrolls
  have start : f.cursorPos.2 ≤ (f.startOf str).2 + f.cursorPos.2 := Nat.le_add_left _ _
  have lag : (walk f.textCols f.cursorPos str).2 ≤ (walk f.textCols (f.startOf str) str).2 + f.cursorPos.2 :=
    (walk_lag _ _ (show f.cursorPos.1 = (f.startOf str).1 from rfl) start).2
  have last : (walk f.textCols (f.startOf str) str).2 < f.textRows := stays str List.prefix_rfl
  omega

theorem Stays.unblocked {q : List UInt8} {key : UInt8} (positive : 0 < f.textCols) (before : q ++ [key] <+: str)
    (block : Blocked key (walk f.textCols (f.startOf str) q)) : f.scrollAmount f.cursorPos str = 0 := by
  by_contra scrolls
  have needed := scrollAmount_pos scrolls
  have room := stays.room
  have last : (walk f.textCols (f.startOf str) str).2 < f.textRows := stays str List.prefix_rfl
  have start : f.cursorPos.2 ≤ (f.startOf str).2 + (f.scrollAmount f.cursorPos str - 1 + 1) := by
    rw [startOf]
    dsimp only
    omega
  obtain ⟨rfl, first⟩ := block
  have lag := walk_lag_blocked positive (show f.cursorPos.1 = (f.startOf str).1 from rfl) start before first
  omega

end

/-- Where `printc` does what the terminal does. -/
structure Steady (f : Framebuffer) (pos : Nat × Nat) (chr : UInt8) : Prop where
  column : pos.1 < f.textCols
  row : pos.2 < f.textRows
  fits : (advance f.textCols chr pos).2 < f.textRows ∨ 2 ≤ f.textRows

theorem at_restores (steady : f.Steady s.1 chr) (apart : chr = backspace → back f.textCols s.1 ≠ s.1) : (f.at_ s).Restores chr := by
  have row := steady.row
  rw [Restores]
  split_ifs with line erases
  · intro last
    change s.1.2 + 1 = f.textRows at last
    refine ⟨?_, row⟩
    change 0 < s.1.2
    rcases steady.fits with inside | rows
    · have next : advance f.textCols chr s.1 = (0, s.1.2 + 1) := by
        rw [advance, moved, if_pos line, if_neg (Nat.zero_lt_of_lt steady.column).ne]
      rw [next] at inside
      dsimp only at inside
      omega
    · omega
  · exact apart erases
  · exact at_synced

theorem at_printcs (fg bg : Int) (noNul : 0 ∉ str)
    (steady : ∀ q key, q ++ [key] <+: str → f.Steady (q.foldl ((f.terminal (f.fgOf fg) (f.bgOf bg)).type f.textRows) s).1 key)
    (apart : ∀ q, q ++ [backspace] <+: str →
      back f.textCols (q.foldl ((f.terminal (f.fgOf fg) (f.bgOf bg)).type f.textRows) s).1 ≠
        (q.foldl ((f.terminal (f.fgOf fg) (f.bgOf bg)).type f.textRows) s).1) :
    (f.at_ s).printcs str fg bg = f.at_ (str.foldl ((f.terminal (f.fgOf fg) (f.bgOf bg)).type f.textRows) s) := by
  induction str generalizing s with
  | nil => rfl
  | cons chr str ih =>
      rw [List.mem_cons, not_or] at noNul
      have first := steady [] chr (List.prefix_append [chr] str)
      have restores := at_restores first fun erases => apart [] (erases ▸ List.prefix_append [chr] str)
      have typed : (f.at_ s).printc chr (-1) fg bg true = _ :=
        printc_type fg bg (Ne.symm noNul.1) restores first.column first.row first.fits
      rw [at_text] at typed
      have rest := ih noNul.2 (fun q key before => steady (chr :: q) key (List.cons_prefix_cons.mpr ⟨rfl, before⟩))
        fun q before => apart (chr :: q) (List.cons_prefix_cons.mpr ⟨rfl, before⟩)
      rw [printcs, List.foldl_cons, typed]
      exact rest

theorem printcs_eq (fg bg : Int) (nonempty : str ≠ []) (noNul : 0 ∉ str) (starts : f.Starts str)
    (steady : ∀ q key, q ++ [key] <+: str →
      f.Steady (q.foldl ((f.terminal (f.fgOf fg) (f.bgOf bg)).type f.textRows) (f.cursorPos, f.text)).1 key)
    (apart : ∀ q ≠ [], q ++ [backspace] <+: str →
      back f.textCols (q.foldl ((f.terminal (f.fgOf fg) (f.bgOf bg)).type f.textRows) (f.cursorPos, f.text)).1 ≠
        (q.foldl ((f.terminal (f.fgOf fg) (f.bgOf bg)).type f.textRows) (f.cursorPos, f.text)).1) :
    f.printcs str fg bg =
      f.at_ (str.foldl ((f.terminal (f.fgOf fg) (f.bgOf bg)).type f.textRows) (f.cursorPos, f.text)) := by
  cases str with
  | nil => exact absurd rfl nonempty
  | cons chr str =>
      rw [List.mem_cons, not_or] at noNul
      have first := steady [] chr (List.prefix_append [chr] str)
      have typed : f.printc chr (-1) fg bg true = _ :=
        printc_type fg bg (Ne.symm noNul.1) (starts chr rfl) first.column first.row first.fits
      have rest := at_printcs fg bg noNul.2 (fun q key before => steady (chr :: q) key (List.cons_prefix_cons.mpr ⟨rfl, before⟩))
        fun q before => apart (chr :: q) (List.cons_ne_nil _ _) (List.cons_prefix_cons.mpr ⟨rfl, before⟩)
      rw [printcs, List.foldl_cons, typed]
      exact rest

theorem printLoop_eq {F B : Int} (inside : ∀ q, q <+: str → (walk f.textCols pos q).2 < f.textRows) :
    printLoop f.textRows f.textCols F B grid pos str = (((f.terminal F B).write (pos, grid) str).2, walk f.textCols pos str) := by
  induction str generalizing pos grid with
  | nil => rfl
  | cons chr str ih =>
      have here : pos.2 < f.textRows := inside [] List.nil_prefix
      rw [printLoop, if_neg (Nat.not_le.mpr here)]
      exact ih fun q before => inside (chr :: q) (List.cons_prefix_cons.mpr ⟨rfl, before⟩)

theorem printLoop_leaves {rows cols : Nat} {F B : Int} (positive : 0 < cols) (here : pos.2 < rows)
    (leaves : ¬ ∀ q, q <+: str → (walk cols pos q).2 < rows) : (printLoop rows cols F B grid pos str).2.2 = rows := by
  induction str generalizing grid pos with
  | nil =>
      refine absurd (fun q before => ?_) leaves
      rw [List.prefix_nil.mp before]
      exact here
  | cons chr str ih =>
      have most : (advance cols chr pos).2 ≤ pos.2 + 1 := advance_row positive
      rw [printLoop, if_neg (Nat.not_le.mpr here)]
      by_cases next : (advance cols chr pos).2 < rows
      · refine ih next fun all => leaves fun q before => ?_
        cases q with
        | nil => exact here
        | cons key q =>
            obtain ⟨rfl, shorter⟩ := List.cons_prefix_cons.mp before
            exact all q shorter
      · have full : (advance cols chr pos).2 = rows := by omega
        cases str with
        | nil => exact full
        | cons key str =>
            rw [printLoop, if_pos (Nat.le_of_eq full.symm)]
            exact full

theorem scrollScreen_changes (f : Framebuffer) (n : Nat) : f.scrollScreen n =
    { f with
      framebuffer := (f.scrollScreen n).framebuffer
      cursorPos := (f.scrollScreen n).cursorPos
      cursorBufferPos := (f.scrollScreen n).cursorBufferPos } := by
  rw [scrollScreen]
  split_ifs <;> rfl

-- the text that `prints` starts on
def scrolled (f : Framebuffer) (str : List UInt8) : Grid :=
  (f.loadCursorBuffer.scrollScreen (f.scrollAmount f.cursorPos str)).framebuffer

theorem prints_eq_printLoop (nonempty : str ≠ []) : f.prints str (-1) fg bg true =
    f.at_ (printLoop f.textRows f.textCols (f.fgOf fg) (f.bgOf bg) (f.scrolled str) (f.startOf str) str).swap := by
  have others := scrollScreen_changes f.loadCursorBuffer (f.scrollAmount f.cursorPos str)
  have same : f.loadCursorBuffer.scrollAmount (f.loadCursorBuffer.posOf (-1)) str = f.scrollAmount f.cursorPos str := rfl
  rw [prints, if_neg nonempty]
  dsimp only
  rw [if_pos rfl, same, others]
  rfl

theorem scrolled_eq (few : f.scrollAmount f.cursorPos str < f.textRows) :
    f.scrolled str = shiftRows f.textRows (f.scrollAmount f.cursorPos str) f.text := by
  have fewer : ¬ f.scrollAmount f.cursorPos str ≥ f.loadCursorBuffer.textRows := Nat.not_le.mpr few
  rw [scrolled, scrollScreen]
  by_cases zero : f.scrollAmount f.cursorPos str = 0
  · rw [if_pos zero, zero, shiftRows_zero]
    rfl
  · rw [if_neg zero, if_neg fewer]
    rfl

/-! ## Where the two agree -/

theorem back_same {cols : Nat} (inside : pos.1 < cols) (same : back cols pos = pos) : cols = 1 ∧ pos = (0, 0) := by
  obtain ⟨x, y⟩ := pos
  rw [back] at same
  dsimp only at inside same
  split_ifs at same with first
  · obtain ⟨left, top⟩ := Prod.mk.inj same
    exact ⟨by omega, Prod.ext first (by dsimp only; omega)⟩
  · obtain ⟨left, -⟩ := Prod.mk.inj same
    omega

section
variable (column : f.cursorPos.1 < f.textCols) (row : f.cursorPos.2 < f.textRows) (stays : f.Stays str) (F B : Int)
include stays

theorem Stays.start : (f.terminal F B).down (f.scrollAmount f.cursorPos str) (f.startOf str) = f.cursorPos :=
  Prod.ext rfl (Nat.sub_add_cancel stays.room)

include row in
theorem Stays.fits : (f.startOf str).2 + f.scrollAmount f.cursorPos str < f.textRows := by
  rw [startOf, Nat.sub_add_cancel stays.room]
  exact row

include column

theorem Stays.free : (f.terminal F B).Free f.textRows Blocked (f.scrollAmount f.cursorPos str) (f.startOf str) str :=
  fun _ _ before block => .inl (stays.unblocked (Nat.zero_lt_of_lt column) before block)

theorem Stays.reaches : f.scrollAmount f.cursorPos str = 0 ∨
    ∃ r, r <+: str ∧ f.textRows ≤ ((f.terminal F B).walk (f.startOf str) r).2 + 1 := by
  have positive := Nat.zero_lt_of_lt column
  refine or_iff_not_imp_left.mpr fun scrolls => ⟨str, List.prefix_rfl, ?_⟩
  have walked := (f.lawful positive F B).walk_down (n := f.scrollAmount f.cursorPos str)
    fun q key before block => scrolls (stays.unblocked positive before block)
  rw [stays.start F B] at walked
  have rows : (walk f.textCols f.cursorPos str).2 = (walk f.textCols (f.startOf str) str).2 + f.scrollAmount f.cursorPos str :=
    congrArg Prod.snd walked
  have needed := scrollAmount_pos scrolls
  rw [terminal_walk]
  omega

include row

theorem Stays.reached {q : List UInt8} (shorter : q <+: str) :
    ∃ m ≤ f.scrollAmount f.cursorPos str,
      (q.foldl ((f.terminal F B).type f.textRows) (f.cursorPos, f.text)).1 =
        ((walk f.textCols (f.startOf str) q).1, (walk f.textCols (f.startOf str) q).2 + m) ∧
      (walk f.textCols (f.startOf str) q).2 + m < f.textRows := by
  obtain ⟨m, less, cells, typed, -, last⟩ := (f.lawful (Nat.zero_lt_of_lt column) F B).foldl_type_down f.text (stays.fits row)
    (fun q before => stays q (before.trans shorter)) ((stays.free column F B).within shorter)
  rw [stays.start F B] at typed
  exact ⟨m, less, congrArg Prod.fst typed, last⟩

theorem Stays.steady {q : List UInt8} {key : UInt8} (before : q ++ [key] <+: str) :
    f.Steady (q.foldl ((f.terminal F B).type f.textRows) (f.cursorPos, f.text)).1 key := by
  obtain ⟨m, less, typed, last⟩ := stays.reached column row F B ((List.prefix_append q [key]).trans before)
  have inside : (walk f.textCols (f.startOf str) q).1 < f.textCols := walk_col column
  rw [typed]
  refine ⟨inside, last, ?_⟩
  rcases Nat.eq_zero_or_pos m with rfl | some
  · have next : (walk f.textCols (f.startOf str) (q ++ [key])).2 < f.textRows := stays _ before
    rw [walk_append] at next
    exact .inl next
  · have room := stays.room
    exact .inr (by omega)

theorem Stays.apart (notNarrow : ¬ f.Narrow str) {q : List UInt8} (later : q ≠ []) (before : q ++ [backspace] <+: str) :
    back f.textCols (q.foldl ((f.terminal F B).type f.textRows) (f.cursorPos, f.text)).1 ≠
      (q.foldl ((f.terminal F B).type f.textRows) (f.cursorPos, f.text)).1 := by
  obtain ⟨m, -, typed, -⟩ := stays.reached column row F B ((List.prefix_append q [backspace]).trans before)
  have inside : ((walk f.textCols (f.startOf str) q).1, (walk f.textCols (f.startOf str) q).2 + m).1 < f.textCols := walk_col column
  rw [typed]
  intro same
  obtain ⟨single, first⟩ := back_same inside same
  have left : (walk f.textCols (f.startOf str) q).1 = 0 := congrArg Prod.fst first
  have top : (walk f.textCols (f.startOf str) q).2 + m = 0 := congrArg Prod.snd first
  exact notNarrow ⟨single, q, later, before, Prod.ext left (Nat.eq_zero_of_add_eq_zero_right top)⟩

theorem Stays.typed : str.foldl ((f.terminal F B).type f.textRows) (f.cursorPos, f.text) =
    (f.terminal F B).write (f.startOf str, shiftRows f.textRows (f.scrollAmount f.cursorPos str) f.text) str := by
  have typed : str.foldl _ (_, f.text) = (f.terminal F B).write (_, (f.terminal F B).up _ f.text) str :=
    (f.lawful (Nat.zero_lt_of_lt column) F B).foldl_type (stays.fits row) stays (stays.free column F B)
      (stays.reaches column F B)
  rw [stays.start F B] at typed
  exact typed

omit F B in
theorem Stays.prints_eq_printcs (fg bg : Int) (noNul : 0 ∉ str) (starts : f.Starts str) (notNarrow : ¬ f.Narrow str) :
    f.prints str (-1) fg bg true = f.printcs str fg bg := by
  by_cases empty : str = []
  · rw [empty]
    rfl
  have few : f.scrollAmount f.cursorPos str < f.textRows := stays.room.trans_lt row
  rw [prints_eq_printLoop empty, printLoop_eq stays, scrolled_eq few]
  rw [printcs_eq fg bg empty noNul starts (fun q key before => stays.steady column row _ _ before)
    fun q later before => stays.apart column row _ _ notNarrow later before]
  rw [stays.typed column row]
  have ends : ((f.terminal (f.fgOf fg) (f.bgOf bg)).write
      (f.startOf str, shiftRows f.textRows (f.scrollAmount f.cursorPos str) f.text) str).1 = walk f.textCols (f.startOf str) str :=
    Terminal.write_fst
  exact congrArg f.at_ (Prod.ext ends.symm rfl)

end

theorem prints_leaves (column : f.cursorPos.1 < f.textCols) (row : f.cursorPos.2 < f.textRows) (leaves : ¬ f.Stays str) :
    (f.prints str (-1) fg bg true).cursorPos.2 = f.textRows := by
  have start : (f.startOf str).2 < f.textRows := (Nat.sub_le _ _).trans_lt row
  have nonempty : str ≠ [] := by
    rintro rfl
    refine leaves fun q before => ?_
    rw [List.prefix_nil.mp before]
    exact start
  rw [prints_eq_printLoop nonempty]
  exact printLoop_leaves (Nat.zero_lt_of_lt column) start leaves

/-- The same cursor, inside the grid, and the same cells of the grid. -/
structure PrintsAlike (f : Framebuffer) (str : List UInt8) (fg bg : Int) : Prop where
  cursor : (f.prints str (-1) fg bg true).cursorPos = (f.printcs str fg bg).cursorPos
  column : (f.prints str (-1) fg bg true).cursorPos.1 < f.textCols
  row : (f.prints str (-1) fg bg true).cursorPos.2 < f.textRows
  cells : ∀ x y, x < f.textCols → y < f.textRows →
    (f.prints str (-1) fg bg true).framebuffer (x, y) = (f.printcs str fg bg).framebuffer (x, y)

theorem Stays.prints_inside (column : f.cursorPos.1 < f.textCols) (row : f.cursorPos.2 < f.textRows) (stays : f.Stays str) :
    (f.prints str (-1) fg bg true).cursorPos.1 < f.textCols ∧ (f.prints str (-1) fg bg true).cursorPos.2 < f.textRows := by
  by_cases empty : str = []
  · rw [empty]
    exact ⟨column, row⟩
  · rw [prints_eq_printLoop empty, printLoop_eq stays]
    exact ⟨walk_col column, stays str List.prefix_rfl⟩

-- a dark screen, with the cursor drawn at the first cell
def dark (rows cols : Nat) : Framebuffer :=
  ⟨Function.update (fun _ => .filled 0) (0, 0) .cursor, 7, 0, rows, cols, (0, 0), .filled 0, (0, 0)⟩

-- the cursor was set to another cell and not drawn there
def cursorSet : Framebuffer := { dark 3 4 with cursorPos := (1, 1) }

end Framebuffer
end Kerosene.Video
