import Kerosene.Video.Vga
import Mathlib.Algebra.Group.Nat.Defs

/-!
# Printing a string and its characters

The two ways agree as long as the string is scrolled by no more rows than there are above the cursor.
-/

namespace Kerosene.Video
open Lib
namespace Vga

/-- The characters one after the other. -/
def printcs (v : Vga) (str : List UInt8) (fg bg : Int) : Vga := str.foldl (fun v chr => v.printc chr (-1) fg bg true) v

variable {v : Vga} {attr chr : UInt8} {fg bg : Int} {str : List UInt8} {p : Nat} {cells : Nat → Cell} {s : Nat × (Nat → Cell)}

-- the screen with these cells and this cursor
def at_ (v : Vga) (s : Nat × (Nat → Cell)) : Vga := { v with vidMem := s.2, cursor := UInt16.ofNat s.1 }

theorem at_getCursor (small : s.1 < 2 ^ 16) : (v.at_ s).getCursor = s.1 := by
  change (UInt16.ofNat s.1).toNat = s.1
  rw [UInt16.toNat_ofNat']
  exact Nat.mod_eq_of_lt small

theorem at_self : v.at_ (v.getCursor, v.vidMem) = v := by
  change Vga.mk v.vidMem v.currentAttr v.textRows v.textCols (UInt16.ofNat v.cursor.toNat) = v
  rw [UInt16.ofNat_toNat]

theorem cols_pos (inside : p < v.screenChars) : 0 < v.textCols := by
  rcases Nat.eq_zero_or_pos v.textCols with zero | positive
  · rw [screenChars, zero] at inside
    omega
  · exact positive

theorem row_lt_iff (attr : UInt8) (p : Nat) (cols : 0 < v.textCols) :
    (v.terminal attr).row p < v.textRows ↔ p < v.screenChars :=
  Nat.div_lt_iff_lt_mul cols

theorem advance_le (inside : p < v.screenChars) : advance v.textCols chr p ≤ v.screenChars := by
  have cols := cols_pos inside
  rw [advance]
  split_ifs
  · have row : p / v.textCols + 1 ≤ v.textRows := (Nat.div_lt_iff_lt_mul cols).mpr inside
    have most := Nat.mul_le_mul_right v.textCols row
    have split := Nat.div_add_mod p v.textCols
    have rest := Nat.mod_lt p cols
    rw [Nat.add_mul, Nat.one_mul, Nat.mul_comm] at most
    rw [screenChars]
    omega
  all_goals omega

/-! ## One character -/

theorem printc_eq (nonzero : chr ≠ 0) (small : s.1 < 2 ^ 16) : (v.at_ s).printc chr (-1) fg bg true =
    if advance v.textCols chr s.1 > v.screenChars - 1 then
      (v.at_ (advance v.textCols chr s.1, draw (v.printcAttr fg bg) chr s.1 s.2)).scrollScreen 1
    else v.at_ (advance v.textCols chr s.1, draw (v.printcAttr fg bg) chr s.1 s.2) := by
  have here : (if (-1 : Int) < 0 then (v.at_ s).getCursor else (-1 : Int).toNat) = s.1 := at_getCursor small
  rw [printc, if_neg nonzero]
  dsimp only
  rw [here]
  rfl

theorem scrollScreen_eq {n : Nat} (attr : UInt8) (few : n < v.textRows) (small : s.1 < 2 ^ 16) :
    (v.at_ s).scrollScreen n = v.at_ (s.1 - n * v.textCols, (v.terminal attr).up n s.2) := by
  have lessRows : ¬ n ≥ (v.at_ s).textRows := Nat.not_le.mpr few
  have moved :
      (if (v.at_ s).getCursor < n * v.textCols then 0 else (v.at_ s).getCursor - n * v.textCols) = s.1 - n * v.textCols := by
    rw [at_getCursor small]
    split_ifs <;> omega
  rw [scrollScreen, if_neg lessRows]
  change Vga.setCursor _ (if (v.at_ s).getCursor < n * v.textCols then 0 else (v.at_ s).getCursor - n * v.textCols) = _
  rw [moved]
  rfl

theorem printc_type (nonzero : chr ≠ 0) (inside : s.1 < v.screenChars) (small : s.1 < 2 ^ 16)
    (fits : advance v.textCols chr s.1 < v.screenChars ∨ 2 ≤ v.textRows ∧ v.screenChars < 2 ^ 16) :
    (v.at_ s).printc chr (-1) fg bg true = v.at_ ((v.terminal (v.printcAttr fg bg)).type v.textRows s chr) := by
  have most : advance v.textCols chr s.1 ≤ v.screenChars := advance_le inside
  have cols := cols_pos inside
  have row := row_lt_iff (v.printcAttr fg bg) (advance v.textCols chr s.1) cols
  rw [printc_eq nonzero small, Terminal.type]
  change _ = v.at_ (if v.textRows ≤ (v.terminal (v.printcAttr fg bg)).row (advance v.textCols chr s.1) then _ else _)
  by_cases below : advance v.textCols chr s.1 < v.screenChars
  · rw [if_neg (by omega), if_neg (by omega)]
    rfl
  · obtain ⟨rows, narrow⟩ := fits.resolve_left below
    rw [if_pos (by omega), if_pos (by omega), scrollScreen_eq (v.printcAttr fg bg) rows (by dsimp only; omega), Nat.one_mul]
    rfl

/-! ## The whole string -/

/-- Either nothing is scrolled, or the register holds every offset of the screen. -/
def Holds (v : Vga) (p : Nat) (str : List UInt8) : Prop :=
  (∀ q, q <+: str → (v.terminal 0).walk p q < v.screenChars ∧ (v.terminal 0).walk p q < 2 ^ 16) ∨
    2 ≤ v.textRows ∧ v.screenChars < 2 ^ 16

theorem type_fst (attr : UInt8) (cols : 0 < v.textCols) : ((v.terminal attr).type v.textRows s chr).1 =
    if v.screenChars ≤ advance v.textCols chr s.1 then advance v.textCols chr s.1 - v.textCols
    else advance v.textCols chr s.1 := by
  have row := row_lt_iff attr (advance v.textCols chr s.1) cols
  rw [Terminal.type]
  change (if v.textRows ≤ (v.terminal attr).row (advance v.textCols chr s.1) then _ else _ : Nat × (Nat → Cell)).1 = _
  by_cases full : v.screenChars ≤ advance v.textCols chr s.1
  · rw [if_pos (by omega), if_pos full]
    rfl
  · rw [if_neg (by omega), if_neg full]
    rfl

theorem printcs_eq (noNul : 0 ∉ str) (inside : s.1 < v.screenChars) (small : s.1 < 2 ^ 16) (holds : v.Holds s.1 str) :
    (v.at_ s).printcs str fg bg = v.at_ (str.foldl ((v.terminal (v.printcAttr fg bg)).type v.textRows) s) := by
  induction str generalizing s with
  | nil => rfl
  | cons chr str ih =>
      rw [List.mem_cons, not_or] at noNul
      have fits : advance v.textCols chr s.1 < v.screenChars ∨ 2 ≤ v.textRows ∧ v.screenChars < 2 ^ 16 :=
        holds.imp_left fun plain => (plain [chr] (List.prefix_append [chr] str)).1
      have first : (v.at_ s).printc chr (-1) fg bg true = _ := printc_type (Ne.symm noNul.1) inside small fits
      have next : ((v.terminal (v.printcAttr fg bg)).type v.textRows s chr).1 < v.screenChars ∧
          ((v.terminal (v.printcAttr fg bg)).type v.textRows s chr).1 < 2 ^ 16 ∧
          v.Holds ((v.terminal (v.printcAttr fg bg)).type v.textRows s chr).1 str := by
        have most : advance v.textCols chr s.1 ≤ v.screenChars := advance_le inside
        have cols := cols_pos inside
        rw [type_fst _ cols]
        rcases holds with plain | ⟨rows, narrow⟩
        · have here : advance v.textCols chr s.1 < v.screenChars ∧ advance v.textCols chr s.1 < 2 ^ 16 :=
            plain [chr] (List.prefix_append [chr] str)
          rw [if_neg (by omega)]
          exact ⟨here.1, here.2, .inl fun q before => plain (chr :: q) (List.cons_prefix_cons.mpr ⟨rfl, before⟩)⟩
        · refine ⟨?_, ?_, .inr ⟨rows, narrow⟩⟩ <;> split_ifs <;> omega
      obtain ⟨inside, small, holds⟩ := next
      rw [List.foldl_cons, ← ih noNul.2 inside small holds]
      rw [printcs, List.foldl_cons, first]
      rfl

theorem printLoop_eq (inside : ∀ q, q <+: str → (v.terminal attr).walk p q < v.screenChars) :
    printLoop attr v p str =
      ({ v with vidMem := ((v.terminal attr).write (p, v.vidMem) str).2 }, (v.terminal attr).walk p str) := by
  induction str generalizing v p with
  | nil => rfl
  | cons chr str ih =>
      have here : p < v.screenChars := inside [] List.nil_prefix
      rw [printLoop, if_neg (by omega), ih]
      · rfl
      · exact fun q before => inside (chr :: q) (List.cons_prefix_cons.mpr ⟨rfl, before⟩)

theorem printLoop_setCursor (stays : ∀ q, q <+: str → (v.terminal attr).walk s.1 q < v.screenChars) :
    (printLoop attr (v.at_ s) s.1 str).1.setCursor (printLoop attr (v.at_ s) s.1 str).2 =
      v.at_ ((v.terminal attr).write s str) := by
  have loop : printLoop attr (v.at_ s) s.1 str =
      ({ v.at_ s with vidMem := ((v.terminal attr).write s str).2 }, (v.terminal attr).walk s.1 str) := printLoop_eq stays
  have ends : ((v.terminal attr).write s str).1 = (v.terminal attr).walk s.1 str := Terminal.write_fst
  rw [loop, ← ends]
  rfl

theorem rowsNeeded_lt (inside : p < v.screenChars) {n : Nat} (room : n * v.textCols ≤ p) : n < v.textRows := by
  have cols := cols_pos inside
  exact Nat.lt_of_mul_lt_mul_right (room.trans_lt inside)

theorem prints_eq (inside : v.getCursor < v.screenChars) (room : v.rowsNeeded v.getCursor str * v.textCols ≤ v.getCursor)
    (stays : ∀ q, q <+: str →
      (v.terminal (v.printsAttr fg bg)).walk (v.getCursor - v.rowsNeeded v.getCursor str * v.textCols) q < v.screenChars) :
    v.prints str (-1) fg bg true = v.at_ ((v.terminal (v.printsAttr fg bg)).write
      (v.getCursor - v.rowsNeeded v.getCursor str * v.textCols,
        (v.terminal (v.printsAttr fg bg)).up (v.rowsNeeded v.getCursor str) v.vidMem) str) := by
  have few := rowsNeeded_lt inside room
  have small : v.getCursor < 2 ^ 16 := v.cursor.toNat_lt
  by_cases empty : str = []
  · subst empty
    have none_needed : v.rowsNeeded v.getCursor [] = 0 := if_neg (Nat.not_le.mpr inside)
    rw [prints, if_pos rfl, none_needed, up_zero, Nat.zero_mul, Nat.sub_zero]
    exact at_self.symm
  have here : (if (-1 : Int) < 0 then v.getCursor else (-1 : Int).toNat) = v.getCursor := rfl
  rw [prints, if_neg empty, here]
  dsimp only
  rw [if_pos rfl]
  generalize v.rowsNeeded v.getCursor str = n at *
  rcases Nat.eq_zero_or_pos n with zero | positive
  · subst zero
    have printed := printLoop_setCursor (s := (v.getCursor - 0 * v.textCols, v.vidMem)) stays
    rw [Nat.zero_mul, Nat.sub_zero, at_self] at printed
    rw [if_neg (Nat.lt_irrefl 0), up_zero, Nat.zero_mul, Nat.sub_zero]
    exact printed
  · have scrolled : v.scrollScreen n =
        v.at_ (v.getCursor - n * v.textCols, (v.terminal (v.printsAttr fg bg)).up n v.vidMem) := by
      have moved := scrollScreen_eq (v.printsAttr fg bg) (s := (v.getCursor, v.vidMem)) few small
      rwa [at_self] at moved
    rw [if_pos positive, scrolled]
    exact printLoop_setCursor stays

/-! ## The colours -/

def Control (chr : UInt8) : Prop := chr = newline ∨ chr = backspace

theorem draw_control {a b : UInt8} (control : Control chr) : draw a chr = draw b chr := by
  funext offset cells
  rw [draw, draw]
  rcases control with rfl | rfl <;> rfl

theorem write_control {a b : UInt8} (controls : ∀ chr ∈ str, Control chr) :
    (v.terminal a).write s str = (v.terminal b).write s str := by
  induction str generalizing s with
  | nil => rfl
  | cons chr str ih =>
      have here : (v.terminal a).put chr = (v.terminal b).put chr := draw_control (controls chr List.mem_cons_self)
      have rest := ih (s := ((v.terminal a).next chr s.1, (v.terminal a).put chr s.1 s.2)) fun c member =>
        controls c (List.mem_cons_of_mem chr member)
      refine Eq.trans rest ?_
      rw [here]
      rfl

theorem draw_attr {i : Nat} (control : Control chr) : (draw attr chr p cells i).attr = (cells i).attr := by
  rw [draw]
  rcases control with rfl | rfl
  · rfl
  · rw [if_neg (by decide), if_pos rfl]
    generalize (if p > 0 then p - 1 else p) = q
    by_cases here : i = q
    · rw [here, Function.update_self]
    · rw [Function.update_of_ne here]

theorem exists_attr (v : Vga) (p : Nat) (printed : ¬ ∀ chr ∈ str, Control chr) :
    ∃ i, ∀ attr cells, (((v.terminal attr).write (p, cells) str).2 i).attr = attr := by
  induction str using List.reverseRecOn with
  | nil => exact absurd (fun c member => nomatch member) printed
  | append_singleton str chr ih =>
      have last (attr : UInt8) (cells : Nat → Cell) : ((v.terminal attr).write (p, cells) (str ++ [chr])).2 =
          draw attr chr ((v.terminal 0).walk p str) ((v.terminal attr).write (p, cells) str).2 := by
        have before : ((v.terminal attr).write (p, cells) str).1 = (v.terminal 0).walk p str := Terminal.write_fst
        rw [Terminal.write, List.foldl_append, ← before]
        rfl
      by_cases control : Control chr
      · obtain ⟨i, shown⟩ := ih fun all => printed fun c member => by
          rcases List.mem_append.mp member with before | here
          · exact all c before
          · exact List.mem_singleton.mp here ▸ control
        refine ⟨i, fun attr cells => ?_⟩
        rw [last, draw_attr control]
        exact shown attr cells
      · refine ⟨(v.terminal 0).walk p str, fun attr cells => ?_⟩
        rw [last, draw, if_neg fun same => control (.inl same), if_neg fun same => control (.inr same), Function.update_self]

/-- The two orders of the masks give the same attribute. -/
def SameColours (currentAttr : UInt8) (fg bg : Int) : Prop :=
  fg < 0 ∧ bg < 0 ∨
  0 ≤ fg ∧ bg < 0 ∧ currentAttr.toNat < 16 ∧ currentAttr.toNat ||| fg.toNat = fg.toNat ∨
  fg < 0 ∧ 0 ≤ bg ∧ currentAttr.toNat = 17 * bg.toNat ∨
  fg = 0 ∧ bg = 0

theorem and_high {c : Nat} (byte : c < 256) : c &&& 0xf0 = c / 16 * 16 := by
  have halves : ∀ h l : Fin 16, (h.val * 16 + l.val) &&& 0xf0 = h.val * 16 := by decide
  have parts := halves ⟨c / 16, by omega⟩ ⟨c % 16, by omega⟩
  dsimp only at parts
  rwa [Nat.div_add_mod'] at parts

theorem low_nibble {c : Nat} (byte : c < 256) : (UInt8.ofNat c &&& 0x0f).toNat = c % 16 := by
  rw [UInt8.toNat_and, UInt8.toNat_ofNat_of_lt' byte]
  exact Nat.and_two_pow_sub_one_eq_mod c 4

theorem high_nibble {c : Nat} (byte : c < 256) : (UInt8.ofNat c &&& 0xf0).toNat = c / 16 * 16 := by
  rw [UInt8.toNat_and, UInt8.toNat_ofNat_of_lt' byte]
  exact and_high byte

-- two halves of a byte that do not overlap
theorem halves_or {h l : Nat} (small : l < 16) : h * 16 ||| l = h * 16 + l := by
  have disjoint : 2 ^ 4 * h + l = 2 ^ 4 * h ||| l := Nat.two_pow_add_eq_or_of_lt small h
  rw [Nat.mul_comm]
  exact disjoint.symm

theorem fg_masks (c : Fin 256) (f : Fin 16) : (UInt8.ofNat c &&& 0x0f) ||| UInt8.ofNat f =
    (UInt8.ofNat c &&& 0xf0) ||| (UInt8.ofNat f &&& 0x0f) ↔ c.val < 16 ∧ c.val ||| f.val = f.val := by
  have both : c.val % 16 ||| f.val < 16 := Nat.or_lt_two_pow (n := 4) (Nat.mod_lt _ (by decide)) f.isLt
  rw [← UInt8.toNat_inj, UInt8.toNat_or, UInt8.toNat_or, low_nibble c.isLt, high_nibble c.isLt, low_nibble (by omega),
    UInt8.toNat_ofNat_of_lt' (by exact f.isLt.trans (by decide)), Nat.mod_eq_of_lt f.isLt, halves_or f.isLt]
  constructor
  · intro same
    have first : c.val < 16 := by omega
    rw [Nat.mod_eq_of_lt first] at same
    exact ⟨first, by omega⟩
  · rintro ⟨first, same⟩
    rw [Nat.mod_eq_of_lt first, same]
    omega

theorem bg_masks (c : Fin 256) (b : Fin 16) : (UInt8.ofNat c &&& 0xf0) ||| UInt8.ofNat b =
    (UInt8.ofNat c &&& 0x0f) ||| ((UInt8.ofNat b &&& 0x0f) <<< (4 : UInt8)) ↔ c.val = 17 * b.val := by
  have shifted : ∀ b : Fin 16, ((UInt8.ofNat b &&& 0x0f) <<< (4 : UInt8)).toNat = b.val * 16 := by decide
  rw [← UInt8.toNat_inj, UInt8.toNat_or, UInt8.toNat_or, low_nibble c.isLt, high_nibble c.isLt, shifted,
    UInt8.toNat_ofNat_of_lt' (by exact b.isLt.trans (by decide)), halves_or b.isLt, Nat.or_comm,
    halves_or (Nat.mod_lt _ (by decide))]
  omega

theorem low_masks (c : Fin 256) (f : Fin 16) : ((UInt8.ofNat c &&& 0x0f) ||| UInt8.ofNat f) &&& 0xf0 = 0 ∧
    ((UInt8.ofNat c &&& 0xf0) ||| (UInt8.ofNat f &&& 0x0f)) &&& 0x0f = UInt8.ofNat f := by
  have both : c.val % 16 ||| f.val < 16 := Nat.or_lt_two_pow (n := 4) (Nat.mod_lt _ (by decide)) f.isLt
  have isLow : (UInt8.ofNat f.val).toNat = f.val := UInt8.toNat_ofNat_of_lt' (by exact f.isLt.trans (by decide))
  constructor
  · rw [← UInt8.toNat_inj, UInt8.toNat_and, UInt8.toNat_or, low_nibble c.isLt, isLow]
    have high := and_high (both.trans (by decide))
    rwa [Nat.div_eq_of_lt both, Nat.zero_mul] at high
  · rw [← UInt8.toNat_inj, UInt8.toNat_and, UInt8.toNat_or, high_nibble c.isLt, low_nibble (by omega), isLow,
      Nat.mod_eq_of_lt f.isLt, halves_or f.isLt]
    have mask := Nat.and_two_pow_sub_one_eq_mod (c.val / 16 * 16 + f.val) 4
    refine mask.trans ?_
    omega

theorem both_masks : ∀ f b : Fin 16, 0 ||| UInt8.ofNat b = UInt8.ofNat f ||| ((UInt8.ofNat b &&& 0x0f) <<< (4 : UInt8)) ↔
    f.val = 0 ∧ b.val = 0 := by
  decide

theorem attrs_eq_iff (fgLow : -1 ≤ fg) (fgHigh : fg ≤ 15) (bgLow : -1 ≤ bg) (bgHigh : bg ≤ 15) :
    v.printcAttr fg bg = v.printsAttr fg bg ↔ SameColours v.currentAttr fg bg := by
  have cur : UInt8.ofNat v.currentAttr.toNat = v.currentAttr := UInt8.ofNat_toNat
  have bound := v.currentAttr.toNat_lt
  have negative : ¬ (-1 : Int) ≥ 0 := by decide
  have natural (n : Nat) : (n : Int) ≥ 0 := Int.natCast_nonneg n
  rw [printcAttr, printsAttr, SameColours]
  rcases Int.lt_or_le fg 0 with noFg | withFg <;> rcases Int.lt_or_le bg 0 with noBg | withBg
  · obtain rfl : fg = -1 := by omega
    obtain rfl : bg = -1 := by omega
    simp only [if_neg negative]
    simp
  · obtain rfl : fg = -1 := by omega
    obtain ⟨b, rfl⟩ := Int.eq_ofNat_of_zero_le withBg
    have masks := bg_masks ⟨v.currentAttr.toNat, bound⟩ ⟨b, by omega⟩
    rw [cur] at masks
    simp only [if_neg negative, if_pos (natural b), Int.toNat_natCast]
    refine masks.trans ?_
    dsimp only
    omega
  · obtain rfl : bg = -1 := by omega
    obtain ⟨f, rfl⟩ := Int.eq_ofNat_of_zero_le withFg
    have masks := fg_masks ⟨v.currentAttr.toNat, bound⟩ ⟨f, by omega⟩
    rw [cur] at masks
    simp only [if_neg negative, if_pos (natural f), Int.toNat_natCast]
    refine masks.trans ?_
    dsimp only
    omega
  · obtain ⟨b, rfl⟩ := Int.eq_ofNat_of_zero_le withBg
    obtain ⟨f, rfl⟩ := Int.eq_ofNat_of_zero_le withFg
    obtain ⟨none_high, same_low⟩ := low_masks ⟨v.currentAttr.toNat, bound⟩ ⟨f, by omega⟩
    have masks := both_masks ⟨f, by omega⟩ ⟨b, by omega⟩
    rw [cur] at none_high same_low
    simp only [if_pos (natural b), if_pos (natural f), Int.toNat_natCast]
    rw [none_high, same_low]
    refine masks.trans ?_
    dsimp only
    omega

/-! ## Where the two agree -/

-- where `prints` starts to print
def startOf (v : Vga) (str : List UInt8) : Nat := v.getCursor - v.rowsNeeded v.getCursor str * v.textCols

def Stays (v : Vga) (str : List UInt8) : Prop := ∀ q, q <+: str → (v.terminal 0).walk (v.startOf str) q < v.screenChars

/-- There are as many rows above the cursor as are scrolled, no part of the string leaves the screen, a backspace at the
first cell comes after the last row, and the cursor register is wide enough. -/
structure Follows (v : Vga) (str : List UInt8) : Prop where
  room : v.rowsNeeded v.getCursor str * v.textCols ≤ v.getCursor
  stays : v.Stays str
  free : (v.terminal 0).Free v.textRows Blocked (v.rowsNeeded v.getCursor str) (v.startOf str) str
  register : v.screenChars < 2 ^ 16 ∨
    v.rowsNeeded v.getCursor str = 0 ∧ ∀ q, q <+: str → (v.terminal 0).walk v.getCursor q < 2 ^ 16

section
variable (inside : v.getCursor < v.screenChars) (noNul : 0 ∉ str)
include inside

theorem Follows.reaches (follows : v.Follows str) : v.rowsNeeded v.getCursor str = 0 ∨
    ∃ r, r <+: str ∧ v.textRows ≤ (v.terminal 0).row ((v.terminal 0).walk (v.startOf str) r) + 1 := by
  have cols := cols_pos inside
  have room := follows.room
  have free := follows.free
  by_cases blocks : ∃ q key, q ++ [key] <+: str ∧ Blocked key ((v.terminal 0).walk (v.startOf str) q)
  · obtain ⟨q, key, before, block⟩ := blocks
    rcases free q key before block with zero | ⟨r, shorter, last⟩
    · exact .inl zero
    · exact .inr ⟨r, (shorter.trans (List.prefix_append q [key])).trans before, last⟩
  · push Not at blocks
    refine or_iff_not_imp_left.mpr fun scrolls => ⟨str, List.prefix_rfl, ?_⟩
    have down : (v.terminal 0).down (v.rowsNeeded v.getCursor str) (v.startOf str) = v.getCursor := Nat.sub_add_cancel room
    have rows : (v.terminal 0).Lawful v.textRows Blocked := lawful cols
    have walked := rows.walk_down (n := v.rowsNeeded v.getCursor str) fun q key before => blocks q key before
    have rows := rows.row_down (v.rowsNeeded v.getCursor str) ((v.terminal 0).walk (v.startOf str) str)
    rw [← walked, down] at rows
    -- the phantom cursor is in the row that has to be the last
    have needed : v.rowsNeeded v.getCursor str = (v.terminal 0).row ((v.terminal 0).walk v.getCursor str) - v.textRows + 1 ∧
        v.textRows ≤ (v.terminal 0).row ((v.terminal 0).walk v.getCursor str) := by
      by_cases full : (v.terminal 0).walk v.getCursor str ≥ v.screenChars
      · exact ⟨if_pos full, (Nat.le_div_iff_mul_le cols).mpr full⟩
      · exact absurd (if_neg full) scrolls
    omega

include noNul

theorem Follows.printcs_eq_write (follows : v.Follows str) : v.printcs str fg bg =
    v.at_ ((v.terminal (v.printcAttr fg bg)).write
      (v.startOf str, (v.terminal 0).up (v.rowsNeeded v.getCursor str) v.vidMem) str) := by
  have cols := cols_pos inside
  have room := follows.room
  have few := rowsNeeded_lt inside room
  have small : v.getCursor < 2 ^ 16 := v.cursor.toNat_lt
  have reaches := follows.reaches inside
  have start : v.getCursor = v.startOf str + v.rowsNeeded v.getCursor str * v.textCols := (Nat.sub_add_cancel room).symm
  have holds : v.Holds v.getCursor str := by
    by_cases zero : v.rowsNeeded v.getCursor str = 0
    · rw [zero, Nat.zero_mul, Nat.add_zero] at start
      have stays := follows.stays
      rw [Stays, ← start] at stays
      refine .inl fun q before => ⟨stays q before, ?_⟩
      rcases follows.register with narrow | ⟨-, fits⟩
      · exact (stays q before).trans narrow
      · exact fits q before
    · exact .inr ⟨by omega, follows.register.resolve_right fun both => zero both.1⟩
  have rows : (v.terminal (v.printcAttr fg bg)).Lawful v.textRows Blocked := lawful cols
  have above : (v.terminal (v.printcAttr fg bg)).row (v.startOf str) + v.rowsNeeded v.getCursor str < v.textRows := by
    rw [← rows.row_down]
    change (v.startOf str + v.rowsNeeded v.getCursor str * v.textCols) / v.textCols < v.textRows
    rw [← start]
    exact (row_lt_iff 0 _ cols).mpr inside
  have placed : (v.terminal (v.printcAttr fg bg)).down (v.rowsNeeded v.getCursor str) (v.startOf str) = v.getCursor :=
    start.symm
  have typed : str.foldl ((v.terminal (v.printcAttr fg bg)).type v.textRows) (_, v.vidMem) = _ :=
    rows.foldl_type above (fun q before => (row_lt_iff 0 _ cols).mpr (follows.stays q before)) follows.free reaches
  have all : (v.at_ (v.getCursor, v.vidMem)).printcs str fg bg = _ := printcs_eq noNul inside small holds
  rw [placed] at typed
  rw [at_self] at all
  rw [all, typed]
  rfl

omit noNul in
theorem Follows.prints_eq_write (follows : v.Follows str) : v.prints str (-1) fg bg true =
    v.at_ ((v.terminal (v.printsAttr fg bg)).write
      (v.startOf str, (v.terminal 0).up (v.rowsNeeded v.getCursor str) v.vidMem) str) :=
  prints_eq inside follows.room follows.stays

theorem Follows.prints_eq_iff (follows : v.Follows str) : v.prints str (-1) fg bg true = v.printcs str fg bg ↔
    v.printcAttr fg bg = v.printsAttr fg bg ∨ ∀ chr ∈ str, Control chr := by
  rw [follows.prints_eq_write inside, follows.printcs_eq_write inside noNul]
  constructor
  · intro same
    by_cases controls : ∀ chr ∈ str, Control chr
    · exact .inr controls
    · obtain ⟨i, shown⟩ := exists_attr v (v.startOf str) controls
      have cell := congrArg (fun w => (w.vidMem i).attr) same
      exact .inl ((shown _ _).symm.trans (cell.symm.trans (shown _ _)))
  · rintro (same | controls)
    · rw [same]
    · exact congrArg v.at_ (write_control controls)

end

/-! ## Where the string leaves the screen -/

theorem printLoop_outside (outside : v.screenChars ≤ p) : (printLoop attr v p str).2 = p := by
  cases str with
  | nil => rfl
  | cons chr str => rw [printLoop, if_pos outside]

theorem printLoop_leaves (here : p < v.screenChars) (leaves : ¬ ∀ q, q <+: str → (v.terminal 0).walk p q < v.screenChars) :
    (printLoop attr v p str).2 = v.screenChars := by
  induction str generalizing v p with
  | nil =>
      refine absurd (fun q before => ?_) leaves
      rw [List.prefix_nil.mp before]
      exact here
  | cons chr str ih =>
      have most : advance v.textCols chr p ≤ v.screenChars := advance_le here
      rw [printLoop, if_neg (by omega)]
      by_cases next : advance v.textCols chr p < v.screenChars
      · refine ih next fun all => leaves fun q before => ?_
        cases q with
        | nil => exact here
        | cons key q =>
            obtain ⟨rfl, shorter⟩ := List.cons_prefix_cons.mp before
            exact all q shorter
      · have full : advance v.textCols chr p = v.screenChars := by omega
        rw [full]
        exact printLoop_outside le_rfl

theorem walk_of_cols {w : Vga} (same : w.textCols = v.textCols) : (w.terminal 0).walk p str = (v.terminal 0).walk p str := by
  change str.foldl (fun p chr => advance w.textCols chr p) p = str.foldl (fun p chr => advance v.textCols chr p) p
  rw [same]

theorem scrollScreen_size (v : Vga) (n : Nat) :
    (v.scrollScreen n).screenChars = v.screenChars ∧ (v.scrollScreen n).textCols = v.textCols := by
  rw [scrollScreen]
  split_ifs <;> exact ⟨rfl, rfl⟩

theorem prints_leaves (inside : v.getCursor < v.screenChars) (narrow : v.screenChars < 2 ^ 16) (leaves : ¬ v.Stays str) :
    (v.prints str (-1) fg bg true).getCursor = v.screenChars := by
  have start : v.startOf str < v.screenChars := (Nat.sub_le _ _).trans_lt inside
  have nonempty : str ≠ [] := by
    rintro rfl
    refine leaves fun q before => ?_
    rw [List.prefix_nil.mp before]
    exact start
  have here : (if (-1 : Int) < 0 then v.getCursor else (-1 : Int).toNat) = v.getCursor := rfl
  have read (w : Vga) : (w.setCursor v.screenChars).getCursor = v.screenChars := by
    change (UInt16.ofNat v.screenChars).toNat = _
    rw [UInt16.toNat_ofNat']
    exact Nat.mod_eq_of_lt narrow
  rw [prints, if_neg nonempty, here]
  dsimp only
  rw [if_pos rfl]
  by_cases scrolls : v.rowsNeeded v.getCursor str > 0
  · obtain ⟨size, cols⟩ := scrollScreen_size v (v.rowsNeeded v.getCursor str)
    have ended :
        (printLoop (v.printsAttr fg bg) (v.scrollScreen (v.rowsNeeded v.getCursor str)) (v.startOf str) str).2 = v.screenChars := by
      have leaves' : ¬ ∀ q, q <+: str → ((v.scrollScreen (v.rowsNeeded v.getCursor str)).terminal 0).walk (v.startOf str) q <
          (v.scrollScreen (v.rowsNeeded v.getCursor str)).screenChars := by
        intro all
        refine leaves fun q before => ?_
        rw [← size, ← walk_of_cols cols]
        exact all q before
      rw [printLoop_leaves (by rwa [size]) leaves', size]
    rw [if_pos scrolls]
    dsimp only
    rw [← startOf, ended]
    exact read _
  · have none_needed : v.rowsNeeded v.getCursor str = 0 := Nat.eq_zero_of_not_pos scrolls
    have same : v.startOf str = v.getCursor := by rw [startOf, none_needed, Nat.zero_mul, Nat.sub_zero]
    rw [if_neg scrolls]
    dsimp only
    rw [← same, printLoop_leaves start leaves]
    exact read _

theorem printc_inside (nonzero : chr ≠ 0) (inside : v.getCursor < v.screenChars) (narrow : v.screenChars < 2 ^ 16) :
    (v.printc chr (-1) fg bg true).getCursor < (v.printc chr (-1) fg bg true).screenChars ∧
      (v.printc chr (-1) fg bg true).screenChars = v.screenChars := by
  have most : advance v.textCols chr v.getCursor ≤ v.screenChars := advance_le inside
  have cols := cols_pos inside
  have printed : (v.at_ (v.getCursor, v.vidMem)).printc chr (-1) fg bg true = _ := printc_eq nonzero (inside.trans narrow)
  rw [at_self] at printed
  rw [printed]
  generalize draw (v.printcAttr fg bg) chr (v.getCursor, v.vidMem).1 (v.getCursor, v.vidMem).2 = cells
  dsimp only
  split_ifs with full
  · by_cases few : 1 < v.textRows
    · rw [scrollScreen_eq 0 few (by dsimp only; omega)]
      rw [at_getCursor (by dsimp only; omega)]
      refine ⟨?_, rfl⟩
      change advance v.textCols chr v.getCursor - 1 * v.textCols < v.screenChars
      omega
    · have cleared : (v.at_ (advance v.textCols chr v.getCursor, cells)).scrollScreen 1 = _ := if_pos (Nat.le_of_not_lt few)
      rw [cleared]
      exact ⟨Nat.lt_of_le_of_lt (Nat.zero_le _) inside, rfl⟩
  · rw [at_getCursor (by dsimp only; omega)]
    refine ⟨?_, rfl⟩
    change advance v.textCols chr v.getCursor < v.screenChars
    omega

theorem printcs_inside (noNul : 0 ∉ str) (inside : v.getCursor < v.screenChars) (narrow : v.screenChars < 2 ^ 16) :
    (v.printcs str fg bg).getCursor < v.screenChars := by
  induction str generalizing v with
  | nil => exact inside
  | cons chr str ih =>
      rw [List.mem_cons, not_or] at noNul
      obtain ⟨stays, size⟩ : (v.printc chr (-1) fg bg true).getCursor < _ ∧ _ := printc_inside (Ne.symm noNul.1) inside narrow
      have rest := ih noNul.2 stays (by omega)
      rw [size] at rest
      exact rest

/-! ## The two ways -/

def PrintsAlike (v : Vga) (str : List UInt8) (fg bg : Int) : Prop :=
  v.Follows str ∧ (SameColours v.currentAttr fg bg ∨ ∀ chr ∈ str, Control chr)

/-- The condition is enough for the two ways to agree, and exact where nothing has to be scrolled. Where the string
breaks off at the end of the screen they never agree, and where the one follows the other the colours have to. -/
theorem prints_eq_printcs_of_alike (inside : v.getCursor < v.screenChars) (noNul : 0 ∉ str) (fgLow : -1 ≤ fg) (fgHigh : fg ≤ 15)
    (bgLow : -1 ≤ bg) (bgHigh : bg ≤ 15) :
    (v.PrintsAlike str fg bg → v.prints str (-1) fg bg true = v.printcs str fg bg) ∧
    (v.prints str (-1) fg bg true = v.printcs str fg bg → v.screenChars < 2 ^ 16 →
      v.Stays str ∧ (v.Follows str → SameColours v.currentAttr fg bg ∨ ∀ chr ∈ str, Control chr) ∧
        (v.rowsNeeded v.getCursor str = 0 → v.PrintsAlike str fg bg)) := by
  have exact_ (follows : v.Follows str) : v.prints str (-1) fg bg true = v.printcs str fg bg ↔
      SameColours v.currentAttr fg bg ∨ ∀ chr ∈ str, Control chr := by
    rw [follows.prints_eq_iff inside noNul, attrs_eq_iff fgLow fgHigh bgLow bgHigh]
  refine ⟨fun alike => (exact_ alike.1).mpr alike.2, fun same narrow => ?_⟩
  have stays : v.Stays str := by
    by_contra leaves
    have behind : (v.prints str (-1) fg bg true).getCursor = _ := prints_leaves inside narrow leaves
    have before : (v.printcs str fg bg).getCursor < _ := printcs_inside noNul inside narrow
    rw [same] at behind
    omega
  refine ⟨stays, fun follows => (exact_ follows).mp same, fun zero => ?_⟩
  have follows : v.Follows str := ⟨by rw [zero, Nat.zero_mul]; exact Nat.zero_le _, stays, fun _ _ _ _ => .inl zero, .inl narrow⟩
  exact ⟨follows, (exact_ follows).mp same⟩

-- a blank screen of 25 rows and 80 columns
def boot : Vga := ⟨fun _ => ⟨blank, 0x07⟩, 0x07, 25, 80, 0⟩

-- the same with the cursor in the last row, and `hi`, a newline and `yo`
def bottom : Vga := { boot with cursor := 1920 }

def hiYo : List UInt8 := [0x68, 0x69, 0x0a, 0x79, 0x6f]

/-- The screen is scrolled by one row. -/
theorem prints_eq_printcs_of_alike_scrolled : bottom.rowsNeeded bottom.getCursor hiYo = 1 ∧
    bottom.prints hiYo (-1) (-1) (-1) true = bottom.printcs hiYo (-1) (-1) := by
  have one : bottom.rowsNeeded bottom.getCursor hiYo = 1 := by decide
  have start : bottom.startOf hiYo = 1840 := by decide
  have stays : ∀ q ∈ hiYo.inits, (bottom.terminal 0).walk 1840 q < bottom.screenChars := by decide
  have noBackspace : backspace ∉ hiYo := by decide
  refine ⟨one, (prints_eq_printcs_of_alike (by decide) (by decide) (by decide) (by decide) (by decide) (by decide)).1
    ⟨⟨by rw [one]; decide, fun q before => ?_, fun q key before blocked => ?_, .inl (by decide)⟩,
      .inl (.inl ⟨by decide, by decide⟩)⟩⟩
  · rw [start]
    exact stays q ((List.mem_inits q _).mpr before)
  · have member : key ∈ hiYo := before.subset (by simp)
    exact absurd (blocked.1 ▸ member) noBackspace

/-- `printc` keeps the old foreground where `prints` keeps the background. -/
theorem masks_disagree : ¬ ∀ (v : Vga) (str : List UInt8) (fg bg : Int), 1 ≤ v.textRows → 1 ≤ v.textCols →
    v.getCursor < v.screenChars → 0 ∉ str → -1 ≤ fg → fg ≤ 15 → -1 ≤ bg → bg ≤ 15 →
      v.prints str (-1) fg bg true = v.printcs str fg bg := by
  intro always
  have same := always boot [0x61] 1 (-1) (by decide) (by decide) (by decide) (by decide) (by decide) (by decide) (by decide)
    (by decide)
  have attrs := congrArg (fun v => (v.vidMem 0).attr) same
  exact absurd attrs (by decide)

end Vga
end Kerosene.Video
