import Kerosene.Lib.Machine
import Kerosene.Libc.Printf
import Kerosene.Video.VgaPrinting

/-!
# `kproc_stdout`

The process reads what was written to `stdout` in chunks, each of which `video_prints` puts on the screen. The kernel's own
`kvprintf` prints character by character.
-/

namespace Kerosene.Video
open Lib Libc

namespace Vga
variable {v : Vga} {str q : List UInt8} {p : Nat}

/-! ## Texts without backspace -/

theorem advance_mono {p q : Nat} {chr : UInt8} (solid : chr ≠ backspace) (cols : 0 < v.textCols) (le : p ≤ q) :
    advance v.textCols chr p ≤ advance v.textCols chr q := by
  have below : p / v.textCols ≤ q / v.textCols := Nat.div_le_div_right le
  have rowP := Nat.div_add_mod p v.textCols
  have rowQ := Nat.div_add_mod q v.textCols
  have restP := Nat.mod_lt p cols
  have restQ := Nat.mod_lt q cols
  have rows := Nat.mul_le_mul_left v.textCols below
  rw [advance, advance, if_neg solid, if_neg solid]
  split_ifs <;> omega

theorem walk_mono {p q : Nat} (solid : backspace ∉ str) (cols : 0 < v.textCols) (le : p ≤ q) :
    (v.terminal 0).walk p str ≤ (v.terminal 0).walk q str := by
  induction str generalizing p q with
  | nil => exact le
  | cons chr str ih =>
      rw [List.mem_cons, not_or] at solid
      exact ih solid.2 (advance_mono (Ne.symm solid.1) cols le)

theorem le_walk (solid : backspace ∉ str) (p : Nat) : p ≤ (v.terminal 0).walk p str := by
  induction str generalizing p with
  | nil => exact le_rfl
  | cons chr str ih =>
      rw [List.mem_cons, not_or] at solid
      have here : p ≤ advance v.textCols chr p := by
        rw [advance, if_neg (Ne.symm solid.1)]
        split_ifs <;> omega
      exact here.trans (ih solid.2 _)

theorem walk_rows (solid : backspace ∉ str) (cols : 0 < v.textCols) (n p : Nat) :
    (v.terminal 0).walk (p + n * v.textCols) str = (v.terminal 0).walk p str + n * v.textCols := by
  have rows : (v.terminal 0).Lawful v.textRows Blocked := lawful cols
  refine rows.walk_down (n := n) fun q key before blocked => solid ?_
  rw [← blocked.1]
  exact before.subset (List.mem_append_right q List.mem_cons_self)

/-- Typed from the end of the first row, the text stays on the screen. -/
def Short (v : Vga) (str : List UInt8) : Prop := (v.terminal 0).walk (v.textCols - 1) str < v.screenChars

instance shortDecidable (v : Vga) (str : List UInt8) : Decidable (v.Short str) :=
  inferInstanceAs (Decidable ((v.terminal 0).walk (v.textCols - 1) str < v.screenChars))

theorem follows_of_short (inside : v.getCursor < v.screenChars) (narrow : v.screenChars < 2 ^ 16) (solid : backspace ∉ str)
    (short : v.Short str) : v.Follows str := by
  have cols := cols_pos inside
  have column := Nat.mod_lt v.getCursor cols
  have place : v.getCursor % v.textCols + v.getCursor / v.textCols * v.textCols = v.getCursor := by
    rw [Nat.mul_comm]
    exact Nat.mod_add_div ..
  have ends := walk_rows solid cols (v.getCursor / v.textCols) (v.getCursor % v.textCols)
  rw [place] at ends
  have first : (v.terminal 0).walk (v.getCursor % v.textCols) str < v.screenChars :=
    (walk_mono solid cols (by omega)).trans_lt short
  have needed : v.rowsNeeded v.getCursor str = if (v.terminal 0).walk v.getCursor str ≥ v.screenChars
      then (v.terminal 0).walk v.getCursor str / v.textCols - v.textRows + 1 else 0 := rfl
  have bound : (v.terminal 0).walk v.getCursor str < v.textCols * (v.textRows + v.getCursor / v.textCols) := by
    rw [ends, Nat.mul_add, Nat.mul_comm v.textCols, Nat.mul_comm v.textCols]
    exact Nat.add_lt_add_right first _
  have row := Nat.div_lt_of_lt_mul bound
  have room : v.rowsNeeded v.getCursor str * v.textCols ≤ v.getCursor := by
    have few : v.rowsNeeded v.getCursor str ≤ v.getCursor / v.textCols := by
      rw [needed]
      split_ifs with full
      · have rows : v.textRows ≤ (v.terminal 0).walk v.getCursor str / v.textCols := (Nat.le_div_iff_mul_le cols).mpr full
        omega
      · exact Nat.zero_le _
    exact (Nat.mul_le_mul_right _ few).trans (Nat.div_mul_le_self ..)
  refine ⟨room, fun q before => ?_, fun q key before blocked => absurd ?_ solid, .inl narrow⟩
  · obtain ⟨rest, rfl⟩ := before
    have solidRest : backspace ∉ rest := fun member => solid (List.mem_append_right q member)
    have later : (v.terminal 0).walk (v.startOf (q ++ rest)) q ≤ (v.terminal 0).walk (v.startOf (q ++ rest)) (q ++ rest) := by
      rw [Terminal.walk_append]
      exact le_walk solidRest _
    refine later.trans_lt ?_
    have moved := walk_rows solid cols (v.rowsNeeded v.getCursor (q ++ rest)) (v.startOf (q ++ rest))
    rw [startOf, Nat.sub_add_cancel room, ← startOf] at moved
    by_cases full : (v.terminal 0).walk v.getCursor (q ++ rest) ≥ v.screenChars
    · have rows : v.textRows ≤ (v.terminal 0).walk v.getCursor (q ++ rest) / v.textCols := (Nat.le_div_iff_mul_le cols).mpr full
      rw [if_pos full] at needed
      have last := Nat.lt_mul_div_succ ((v.terminal 0).walk v.getCursor (q ++ rest)) cols
      have split : (v.terminal 0).walk v.getCursor (q ++ rest) / v.textCols + 1 =
          v.textRows + v.rowsNeeded v.getCursor (q ++ rest) := by omega
      rw [split, Nat.mul_add, Nat.mul_comm v.textCols, Nat.mul_comm v.textCols, moved] at last
      exact Nat.lt_of_add_lt_add_right last
    · rw [if_neg full] at needed
      rw [needed, Nat.zero_mul, Nat.add_zero] at moved
      rw [← moved]
      exact not_le.mp full
  · rw [← blocked.1]
    exact before.subset (List.mem_append_right q List.mem_cons_self)

end Vga

/-! ## The process -/

-- `buffer` without the byte that ends the string
def bufferSize : Nat := 511

/-- What was written to `stdout` and not read yet, and the screen. -/
structure Stdout where
  pending : List UInt8
  screen : Vga

namespace Stdout

inductive Event
  | written (data : List UInt8)
  -- one round of the loop, in which `syscall_read` returns no more than `n` bytes
  | round (n : Nat)

def round (s : Stdout) (n : Nat) : Stdout :=
  let buffer := s.pending.take (min n bufferSize)
  { pending := s.pending.drop (min n bufferSize)
    screen := if buffer.length > 0 then s.screen.prints (buffer.takeWhile (· ≠ 0)) (-1) (-1) (-1) true else s.screen }

def step (s : Stdout) : Event → Stdout
  | .written data => { s with pending := s.pending ++ data }
  | .round n => s.round n

def writes : Event → List UInt8
  | .written data => data
  | .round _ => []

def machine : Machine Stdout Event where
  Legal _ _ := True
  step s e := some (s.step e)

variable {v : Vga} {events : List Event} {s : Stdout} {format : List UInt8} {args : List Arg}

-- `print` of the kernel
def printChar (v : Vga) (chr : UInt8) : Vga := v.printc chr (-1) (-1) (-1) true

theorem printcs_chars (v : Vga) (str : List UInt8) : str.foldl printChar v = v.printcs str (-1) (-1) := rfl

/-- The screen shows `shown`, which is what was read. -/
structure Shows (v : Vga) (s : Stdout) (all shown : List UInt8) : Prop where
  whole : shown ++ s.pending = all
  screen : s.screen = v.printcs shown (-1) (-1)
  rows : s.screen.textRows = v.textRows
  cols : s.screen.textCols = v.textCols
  inside : s.screen.getCursor < v.screenChars

theorem Shows.round {all shown : List UInt8} (shows : Shows v s all shown) (narrow : v.screenChars < 2 ^ 16)
    (noNul : 0 ∉ all) (solid : backspace ∉ all) (short : ∀ chunk, chunk <:+: all → chunk.length ≤ bufferSize → v.Short chunk)
    (n : Nat) : ∃ shown, Shows v (s.round n) all shown := by
  obtain ⟨whole, screen, rows, cols, inside⟩ := shows
  have split : shown ++ s.pending.take (min n bufferSize) ++ s.pending.drop (min n bufferSize) = all := by
    rw [List.append_assoc, List.take_append_drop, whole]
  have bound : (s.pending.take (min n bufferSize)).length ≤ bufferSize := by
    rw [List.length_take]
    omega
  rw [Stdout.round]
  generalize s.pending.take (min n bufferSize) = chunk at split bound
  have part : chunk <:+: all := ⟨shown, s.pending.drop (min n bufferSize), split⟩
  have noNul' : 0 ∉ chunk := fun member => noNul (part.subset member)
  have text : chunk.takeWhile (· ≠ 0) = chunk := by
    refine List.takeWhile_eq_self_iff.mpr fun c member => ?_
    exact decide_eq_true fun zero => noNul' (zero ▸ member)
  have chars : s.screen.screenChars = v.screenChars := by rw [Vga.screenChars, Vga.screenChars, rows, cols]
  have inside' : s.screen.getCursor < s.screen.screenChars := by rwa [chars]
  have narrow' : s.screen.screenChars < 2 ^ 16 := by rwa [chars]
  have fits : s.screen.Short chunk := by
    have fits := short chunk part bound
    rwa [Vga.Short, ← Vga.walk_of_cols cols, ← chars, ← cols] at fits
  have follows := Vga.follows_of_short inside' narrow' (fun member => solid (part.subset member)) fits
  have printed : (if chunk.length > 0 then s.screen.prints chunk (-1) (-1) (-1) true else s.screen) =
      s.screen.printcs chunk (-1) (-1) := by
    split_ifs with some
    · exact (follows.prints_eq_iff inside' noNul').mpr (.inl rfl)
    · rw [List.eq_nil_of_length_eq_zero (Nat.eq_zero_of_not_pos some)]
      rfl
  have placed : s.screen.printcs chunk (-1) (-1) = _ := follows.printcs_eq_write inside' noNul'
  refine ⟨shown ++ chunk, split, ?_, ?_, ?_, ?_⟩
  all_goals
    dsimp only
    rw [text, printed]
  · rw [screen, Vga.printcs, Vga.printcs, Vga.printcs, List.foldl_append]
  · rw [placed]
    exact rows
  · rw [placed]
    exact cols
  · have last : (s.screen.printcs chunk (-1) (-1)).getCursor < _ := Vga.printcs_inside noNul' inside' narrow'
    rwa [chars] at last

theorem shows_of_runs (run : machine.Runs ⟨[], v⟩ events s) (inside : v.getCursor < v.screenChars) (narrow : v.screenChars < 2 ^ 16)
    (noNul : 0 ∉ events.flatMap writes) (solid : backspace ∉ events.flatMap writes)
    (short : ∀ chunk, chunk <:+: events.flatMap writes → chunk.length ≤ bufferSize → v.Short chunk) :
    ∃ shown, Shows v s (events.flatMap writes) shown := by
  induction run with
  | start => exact ⟨[], rfl, rfl, rfl, rfl, inside⟩
  | @snoc events s t e run _ done ih =>
      cases done
      rw [List.flatMap_append, List.flatMap_singleton] at noNul solid short ⊢
      have before := List.prefix_append (events.flatMap writes) (writes e)
      obtain ⟨shown, shows⟩ := ih (fun member => noNul (before.subset member)) (fun member => solid (before.subset member))
        fun chunk part => short chunk (part.trans before.isInfix)
      cases e with
      | written data =>
          refine ⟨shown, ?_, shows.screen, shows.rows, shows.cols, shows.inside⟩
          rw [writes, ← shows.whole, List.append_assoc]
          rfl
      | round n =>
          rw [writes, List.append_nil] at noNul solid short ⊢
          exact shows.round narrow noNul solid short n

/-- However writes and rounds follow each other, the screen shows the bytes read so far, each typed once and in order; and when
all of what a format prints is read, it is the screen that `kvprintf` leaves for that format. -/
theorem stdout_shows (run : machine.Runs ⟨[], v⟩ events s) (inside : v.getCursor < v.screenChars) (narrow : v.screenChars < 2 ^ 16)
    (noNul : 0 ∉ events.flatMap writes) (solid : backspace ∉ events.flatMap writes)
    (short : ∀ chunk, chunk <:+: events.flatMap writes → chunk.length ≤ bufferSize → v.Short chunk) :
    (∃ shown, shown ++ s.pending = events.flatMap writes ∧ s.screen = v.printcs shown (-1) (-1)) ∧
      (s.pending = [] → ∀ format args, render format args = some (events.flatMap writes) →
        kvprintf printChar v format args = some s.screen) := by
  obtain ⟨shown, shows⟩ := shows_of_runs run inside narrow noNul solid short
  refine ⟨⟨shown, shows.whole, shows.screen⟩, fun read format args rendered => ?_⟩
  have whole := shows.whole
  rw [read, List.append_nil] at whole
  rw [kvprintf_exact printChar rendered, printcs_chars, ← whole, shows.screen]

theorem runs_foldl (s : Stdout) (events : List Event) : machine.Runs s events (events.foldl step s) := by
  induction events using List.reverseRecOn with
  | nil => exact .start
  | append_singleton events e ih =>
      rw [List.foldl_append]
      exact .snoc ih trivial rfl

-- `hi` and a new line, read in two rounds
theorem stdout_shows_hi : kvprintf printChar Vga.boot [0x68, 0x69, 0x0a] [] =
    some ([Event.written [0x68, 0x69, 0x0a], .round 2, .round 9].foldl step ⟨[], Vga.boot⟩).screen := by
  have short : ∀ chunk ∈ [0x68, 0x69, (0x0a : UInt8)].sublists, Vga.boot.Short chunk := by
    decide
  exact (stdout_shows (runs_foldl ⟨[], Vga.boot⟩ [.written [0x68, 0x69, 0x0a], .round 2, .round 9]) (by decide) (by decide)
    (by decide) (by decide) fun chunk part _ => short chunk (List.mem_sublists.mpr part.sublist)).2 rfl [0x68, 0x69, 0x0a] [] rfl

end Stdout
end Kerosene.Video
