import Kerosene.Lib.Raster
import Kerosene.Video.Pixels

/-!
# Drawing on the framebuffer

Rectangles, lines and circles. The coordinates are `int`s, of which those outside of the screen are clipped by
`video_framebuffer_plot_pixel`.
-/

namespace Kerosene.Video
open Lib

namespace Screen
variable {s s' : Screen} {color : Int} {x y n w : Nat}

/-! ## Rectangles -/

-- the store of the inner loop
def fillPixel (s : Screen) (fb : Nat) (color : Int) : Screen :=
  if s.fbBpp = 8 then s.withMemory (s.framebuffer.setField fb 1 (unsigned color))
  else if s.fbBpp = 16 then s.withMemory (s.framebuffer.setField fb 2 (unsigned color))
  else if s.fbBpp = 32 then s.withMemory (s.framebuffer.setField fb 4 (unsigned color))
  else s

def fillRow (s : Screen) (fb : Nat) (color : Int) : (count : Nat) → Screen × Nat
  | 0 => (s, fb)
  | count + 1 => (s.fillPixel fb color).fillRow (fb + s.fbBpp / 8) color count

def fillRows (s : Screen) (fb dx : Nat) (color : Int) : (count : Nat) → Screen
  | 0 => s
  | count + 1 =>
      let (s, fb) := s.fillRow fb color (dx + 1)
      s.fillRows (fb + (s.fbPitch - (dx + 1) * (s.fbBpp / 8))) dx color count

-- a coordinate that is not on the screen, a negative one too, becomes the last one
def clamp (w : Nat) (n : Int) : Int := if unsigned n ≥ w then int (w - 1) else n

def fillRectangle (s : Screen) (x0 y0 x1 y1 color : Int) : Screen :=
  let x0 := clamp s.fbWidth x0
  let x1 := clamp s.fbWidth x1
  let y0 := clamp s.fbHeight y0
  let y1 := clamp s.fbHeight y1
  let dx := int (x1 - x0)
  let (dx, x0) := if dx < 0 then (int (-dx), x1) else (dx, x0)
  let dy := int (y1 - y0)
  let (dy, y0) := if dy < 0 then (int (-dy), y1) else (dy, y0)
  s.fillRows (y0.toNat * s.fbPitch + x0.toNat * (s.fbBpp / 8)) dx.toNat color (dy.toNat + 1)

def cls (s : Screen) (bg : Int) : Screen := s.fillRectangle 0 0 (s.fbWidth - 1) (s.fbHeight - 1) bg

theorem fillPixel_eq (on : s.OnScreen x y) (color : Int) :
    s.fillPixel (y * s.fbPitch + x * (s.fbBpp / 8)) color = s.plotPixel x y color := by
  rw [fillPixel, plotPixel, if_neg (show ¬ (x ≥ s.fbWidth ∨ y ≥ s.fbHeight) from not_or.mpr ⟨not_le.mpr on.1, not_le.mpr on.2⟩)]
  by_cases byte : s.fbBpp = 8
  · rw [if_pos byte, if_pos byte, byte, Nat.mul_one]
  rw [if_neg byte, if_neg byte]
  by_cases half : s.fbBpp = 16
  · rw [if_pos half, if_pos half, half, Nat.mul_comm x]
  rw [if_neg half, if_neg half]
  by_cases word : s.fbBpp = 32
  · rw [if_pos word, if_pos word, word, Nat.mul_comm x]
  · rw [if_neg word, if_neg word]

theorem unsigned_natCast {w : Nat} (inside : x < w) (width : w < 2 ^ 31) : unsigned x = x := by
  rw [unsigned]
  omega

theorem fillPixel_paints (on : s.OnScreen x y) (color : Int) :
    s.Paints (s.fillPixel (y * s.fbPitch + x * (s.fbBpp / 8)) color) {((x : Int), (y : Int))} color := by
  have drawn := plot_paints s (x := x) (y := y) ⟨by omega, by have := on.1.trans s.width; omega⟩
    ⟨by omega, by have := on.2.trans s.height; omega⟩ color
  rwa [plot, unsigned_natCast on.1 s.width, unsigned_natCast on.2 s.height, ← fillPixel_eq on] at drawn

def rectangle (x0 y0 x1 y1 : Int) : Set (Int × Int) := {p | (x0 ≤ p.1 ∧ p.1 < x1) ∧ y0 ≤ p.2 ∧ p.2 < y1}

theorem fillRow_paints (left : x + n ≤ s.fbWidth) (below : y < s.fbHeight) (color : Int) :
    s.Paints (s.fillRow (y * s.fbPitch + x * (s.fbBpp / 8)) color n).1 (rectangle x y (x + n : Nat) (y + 1 : Nat)) color ∧
      (s.fillRow (y * s.fbPitch + x * (s.fbBpp / 8)) color n).2 = y * s.fbPitch + (x + n) * (s.fbBpp / 8) := by
  induction n generalizing s x with
  | zero =>
      refine ⟨(Paints.refl s color).congr ?_, rfl⟩
      ext p
      simp only [Set.mem_empty_iff_false, rectangle, Set.mem_ofPred_eq, false_iff]
      omega
  | succ n ih =>
      have first := fillPixel_paints (s := s) (x := x) ⟨by omega, below⟩ color
      have size := first.size
      generalize made : s.fillPixel (y * s.fbPitch + x * (s.fbBpp / 8)) color = s₁ at *
      have next : y * s.fbPitch + x * (s.fbBpp / 8) + s.fbBpp / 8 = y * s₁.fbPitch + (x + 1) * (s₁.fbBpp / 8) := by
        rw [size, Nat.add_mul x, Nat.one_mul]
        exact Nat.add_assoc ..
      have rest := ih (s := s₁) (x := x + 1) (by rw [size]; exact (Nat.add_right_comm x 1 n).le.trans left)
        (by rw [size]; exact below)
      rw [fillRow, made, next]
      refine ⟨(first.trans rest.1).congr ?_, rest.2.trans ?_⟩
      · ext ⟨i, j⟩
        simp only [Set.mem_union, Set.mem_singleton_iff, rectangle, Set.mem_ofPred_eq, Prod.mk.injEq]
        omega
      · rw [size, Nat.add_right_comm x 1 n]
        rfl

theorem fillRows_paints (dx : Nat) (left : x + (dx + 1) ≤ s.fbWidth) (below : y + n ≤ s.fbHeight) (color : Int) :
    s.Paints (s.fillRows (y * s.fbPitch + x * (s.fbBpp / 8)) dx color n) (rectangle x y (x + (dx + 1) : Nat) (y + n : Nat))
      color := by
  induction n generalizing s y with
  | zero =>
      refine (Paints.refl s color).congr ?_
      ext p
      simp only [Set.mem_empty_iff_false, rectangle, Set.mem_ofPred_eq, false_iff]
      omega
  | succ n ih =>
      obtain ⟨first, behind⟩ := fillRow_paints left (show y < s.fbHeight by omega) color
      have size := first.size
      rw [fillRows]
      generalize s.fillRow (y * s.fbPitch + x * (s.fbBpp / 8)) color (dx + 1) = r at *
      obtain ⟨s₁, fb⟩ := r
      dsimp only at first behind size ⊢
      have next : fb + (s₁.fbPitch - (dx + 1) * (s₁.fbBpp / 8)) = (y + 1) * s₁.fbPitch + x * (s₁.fbBpp / 8) := by
        have room := Nat.mul_le_mul_right (s.fbBpp / 8) left
        have rows := s.rows
        rw [behind, size]
        simp only [withMemory]
        rw [Nat.add_mul] at room ⊢
        rw [Nat.add_mul y, Nat.one_mul]
        omega
      have rest := ih (s := s₁) (y := y + 1) (by rw [size]; exact left)
        (by rw [size]; exact (Nat.add_right_comm y 1 n).le.trans below)
      rw [next]
      refine (first.trans rest).congr ?_
      ext ⟨i, j⟩
      simp only [Set.mem_union, rectangle, Set.mem_ofPred_eq]
      omega

theorem clamp_eq {n : Int} (small : Small n) (width : w < 2 ^ 31) (positive : 0 < w) :
    clamp w n = if 0 ≤ n ∧ n < w then n else w - 1 := by
  have inside := unsigned_lt_iff small width
  rw [clamp, int_eq ⟨by omega, by omega⟩]
  by_cases on : 0 ≤ n ∧ n < w
  · rw [if_neg (not_le.mpr (inside.mpr on)), if_pos on]
  · rw [if_pos (not_lt.mp (mt inside.mp on)), if_neg on]

theorem clamp_bounds {n : Int} (small : Small n) (width : w < 2 ^ 31) (positive : 0 < w) : 0 ≤ clamp w n ∧ clamp w n < w := by
  rw [clamp_eq small width positive]
  split_ifs <;> omega

theorem fillSide {a b : Int} (first : 0 ≤ a ∧ a < w) (second : 0 ≤ b ∧ b < w) (width : w < 2 ^ 31) :
    (if int (b - a) < 0 then (int (-int (b - a)), b) else (int (b - a), a)) = (max a b - min a b, min a b) := by
  rw [int_eq ⟨by omega, by omega⟩, int_eq ⟨by omega, by omega⟩]
  split_ifs <;> rw [Prod.mk.injEq] <;> omega

variable {x0 y0 x1 y1 : Int}

/-- The rectangle between the clamped corners. -/
def filled (s : Screen) (x0 y0 x1 y1 : Int) : Set (Int × Int) :=
  {p | Between (clamp s.fbWidth x0) (clamp s.fbWidth x1) p.1 ∧ Between (clamp s.fbHeight y0) (clamp s.fbHeight y1) p.2}

structure Corners (s : Screen) (x0 y0 x1 y1 : Int) : Prop where
  x0 : Small x0
  y0 : Small y0
  x1 : Small x1
  y1 : Small y1
  width : 0 < s.fbWidth
  height : 0 < s.fbHeight

theorem fillRectangle_paints (corners : s.Corners x0 y0 x1 y1) (color : Int) :
    s.Paints (s.fillRectangle x0 y0 x1 y1 color) (s.filled x0 y0 x1 y1) color := by
  have left := clamp_bounds corners.x0 s.width corners.width
  have right := clamp_bounds corners.x1 s.width corners.width
  have upper := clamp_bounds corners.y0 s.height corners.height
  have lower := clamp_bounds corners.y1 s.height corners.height
  simp only [fillRectangle, filled, fillSide left right s.width, fillSide upper lower s.height]
  generalize clamp s.fbWidth x0 = a at *
  generalize clamp s.fbWidth x1 = b at *
  generalize clamp s.fbHeight y0 = c at *
  generalize clamp s.fbHeight y1 = d at *
  have rows := fillRows_paints (s := s) (x := (min a b).toNat) (y := (min c d).toNat) (n := (max c d - min c d).toNat + 1)
    (max a b - min a b).toNat (by omega) (by omega) color
  refine rows.congr ?_
  ext ⟨i, j⟩
  simp only [rectangle, Between, Set.mem_ofPred_eq]
  omega

-- what a caller asks for
def asked (x0 y0 x1 y1 : Int) : Set (Int × Int) := {p | Between x0 x1 p.1 ∧ Between y0 y1 p.2}

/-- On a side of `w` pixels neither `a` nor `b` is negative and one is on the screen, or the one pixel lies between them. -/
def Reaches (w : Nat) (a b : Int) : Prop := 0 ≤ a ∧ 0 ≤ b ∧ (a < w ∨ b < w) ∨ w = 1 ∧ Between a b 0

theorem reaches_iff {a b : Int} (first : Small a) (second : Small b) (width : w < 2 ^ 31) (positive : 0 < w) :
    Reaches w a b ↔ ∀ n : Nat, n < w → (Between (clamp w a) (clamp w b) n ↔ Between a b n) := by
  have low := clamp_eq first width positive
  have high := clamp_eq second width positive
  constructor
  · intro reaches n inside
    rw [low, high, Between, Between]
    rcases reaches with ⟨zero, zero', on⟩ | ⟨rfl, one⟩
    · split_ifs <;> omega
    · rw [Between] at one
      split_ifs <;> omega
  · intro same
    have first := same 0 positive
    have last := same (w - 1) (by omega)
    rw [low, high, Between, Between] at first last
    rw [Reaches, Between]
    split_ifs at first last <;> omega

-- what is not on the screen does not matter
theorem Paints.onScreen {A B : Set (Int × Int)} (paints : s.Paints s' A color)
    (same : ∀ x y : Nat, s.OnScreen x y → (((x : Int), (y : Int)) ∈ A ↔ ((x : Int), (y : Int)) ∈ B)) : s.Paints s' B color := by
  refine ⟨paints.size, fun x y on member => paints.inside x y on ((same x y on).mpr member), fun x y other => ?_,
    fun a free => paints.kept a fun x y on member => free x y on ((same x y on).mp member)⟩
  by_cases on : s.OnScreen x y
  · exact paints.outside x y fun member => other ((same x y on).mp member)
  · have off : ¬ s'.OnScreen x y := by
      rw [paints.size]
      exact on
    rw [getPixel_eq, getPixel_eq, if_neg on, if_neg off]

theorem shown_one (depth : s.fbBpp = 8 ∨ s.fbBpp = 16 ∨ s.fbBpp = 32) : s.shown 1 = 1 := by
  have size : s.pixelSize = s.fbBpp / 8 := if_pos depth
  have one : unsigned 1 = 1 := rfl
  have value : 1 % 256 ^ s.pixelSize = 1 := by
    rw [size]
    rcases depth with same | same | same <;> rw [same] <;> rfl
  rw [shown, one, value]
  exact int_eq ⟨by decide, by decide⟩

theorem getPixel_blank (x y : Nat) : (s.withMemory fun _ => 0).getPixel x y = 0 := by
  have blank (n a : Nat) : Bytes.field (fun _ => 0) a n = 0 := by
    induction n with
    | zero => rfl
    | succ n ih => rw [Bytes.field, ih]; rfl
  rw [getPixel_eq]
  split_ifs
  · rw [withMemory_framebuffer, blank]
    exact int_eq ⟨by decide, by decide⟩
  · rfl

/-- A rectangle is filled as far as it is visible if and only if no corner is negative and it reaches the screen; on a side of one
pixel it only has to reach it. -/
theorem fillRectangle_visible_iff (corners : s.Corners x0 y0 x1 y1) (depth : s.fbBpp = 8 ∨ s.fbBpp = 16 ∨ s.fbBpp = 32) :
    (∀ m color, (s.withMemory m).Paints ((s.withMemory m).fillRectangle x0 y0 x1 y1 color) (asked x0 y0 x1 y1) color) ↔
      Reaches s.fbWidth x0 x1 ∧ Reaches s.fbHeight y0 y1 := by
  have fills (m : Bytes) (color : Int) : (s.withMemory m).Paints ((s.withMemory m).fillRectangle x0 y0 x1 y1 color)
      (s.filled x0 y0 x1 y1) color := fillRectangle_paints (s := s.withMemory m) ⟨corners.x0, corners.y0, corners.x1, corners.y1,
    corners.width, corners.height⟩ color
  rw [reaches_iff corners.x0 corners.x1 s.width corners.width, reaches_iff corners.y0 corners.y1 s.height corners.height]
  constructor
  · intro visible
    have all := fills (fun _ => 0) 1
    have wanted := visible (fun _ => 0) 1
    have one : (s.withMemory fun _ => 0).shown 1 = 1 := shown_one depth
    -- on a blank screen one sees which pixels were filled
    have same (i j : Nat) (on : s.OnScreen i j) :
        ((i : Int), (j : Int)) ∈ s.filled x0 y0 x1 y1 ↔ ((i : Int), (j : Int)) ∈ asked x0 y0 x1 y1 := by
      constructor
      · intro member
        by_contra other
        have drawn := all.inside i j on member
        rw [wanted.outside i j other, getPixel_blank, one] at drawn
        cases drawn
      · intro member
        by_contra other
        have drawn := wanted.inside i j on member
        rw [all.outside i j other, getPixel_blank, one] at drawn
        cases drawn
    have left := clamp_bounds corners.x0 s.width corners.width
    have upper := clamp_bounds corners.y0 s.height corners.height
    obtain ⟨i₀, column⟩ := Int.eq_ofNat_of_zero_le left.1
    obtain ⟨j₀, row⟩ := Int.eq_ofNat_of_zero_le upper.1
    have inColumn : Between (clamp s.fbWidth x0) (clamp s.fbWidth x1) i₀ := by
      rw [← column]
      exact ⟨min_le_left _ _, le_max_left _ _⟩
    have inRow : Between (clamp s.fbHeight y0) (clamp s.fbHeight y1) j₀ := by
      rw [← row]
      exact ⟨min_le_left _ _, le_max_left _ _⟩
    have corner : s.OnScreen i₀ j₀ := ⟨by omega, by omega⟩
    obtain ⟨column', row'⟩ := (same i₀ j₀ corner).mp ⟨inColumn, inRow⟩
    exact ⟨fun n inside => ⟨fun there => ((same n j₀ ⟨inside, corner.2⟩).mp ⟨there, inRow⟩).1,
        fun there => ((same n j₀ ⟨inside, corner.2⟩).mpr ⟨there, row'⟩).1⟩,
      fun n inside => ⟨fun there => ((same i₀ n ⟨corner.1, inside⟩).mp ⟨inColumn, there⟩).2,
        fun there => ((same i₀ n ⟨corner.1, inside⟩).mpr ⟨column', there⟩).2⟩⟩
  · rintro ⟨columns, rows⟩ m color
    exact (fills m color).onScreen fun i j on => and_congr (columns i on.1) (rows j on.2)

-- a screen of eight by eight pixels
def tile : Screen := ⟨fun _ => 0, 32, 8, 8, 32, by decide, by decide, by decide⟩

theorem fillRectangle_visible_iff_tile : tile.Paints (tile.fillRectangle 9 1 5 3 7) (asked 9 1 5 3) 7 := by
  have visible : ∀ m color, (tile.withMemory m).Paints ((tile.withMemory m).fillRectangle 9 1 5 3 color) (asked 9 1 5 3) color := by
    refine (fillRectangle_visible_iff (s := tile) ⟨⟨?_, ?_⟩, ⟨?_, ?_⟩, ⟨?_, ?_⟩, ⟨?_, ?_⟩, ?_, ?_⟩ (.inr (.inr rfl))).mpr
      ⟨.inl ?_, .inl ?_⟩
    all_goals decide
  exact visible tile.framebuffer 7

theorem cls_paints (width : 0 < s.fbWidth) (height : 0 < s.fbHeight) (bg : Int) : s.Paints (s.cls bg) Set.univ bg := by
  have right := s.width
  have lower := s.height
  have zero : Small 0 := ⟨by decide, by decide⟩
  have lastX : Small (s.fbWidth - 1) := ⟨by omega, by omega⟩
  have lastY : Small (s.fbHeight - 1) := ⟨by omega, by omega⟩
  refine (fillRectangle_paints ⟨zero, zero, lastX, lastY, width, height⟩ bg).onScreen fun i j on => ?_
  obtain ⟨left, above⟩ := on
  rw [filled, clamp_eq zero right width, clamp_eq zero lower height, clamp_eq lastX right width, clamp_eq lastY lower height,
    if_pos ⟨by omega, by omega⟩, if_pos ⟨by omega, by omega⟩, if_pos ⟨by omega, by omega⟩, if_pos ⟨by omega, by omega⟩]
  simp only [Between, Set.mem_ofPred_eq, Set.mem_univ, iff_true]
  omega

/-! ## Lines -/

section
variable (plot : Screen → Int → Int → Screen)

-- the loop of `draw_line_low`, and with the coordinates exchanged that of `draw_line_high`
def lineLoop (major minor sign : Int) : (count : Nat) → (u v D : Int) → Screen → Screen
  | 0, _, _, _, s => s
  | count + 1, u, v, D, s =>
      let s := plot s u v
      if D > 0 then lineLoop major minor sign count (int (u + 1)) (int (v + sign)) (int (D + int (2 * int (minor - major)))) s
      else lineLoop major minor sign count (int (u + 1)) v (int (D + int (2 * minor))) s

def drawAlong (s : Screen) (u0 v0 u1 v1 : Int) : Screen :=
  let major := int (u1 - u0)
  let minor := int (v1 - v0)
  let (sign, minor) := if minor < 0 then (-1, int (-minor)) else (1, minor)
  lineLoop plot major minor sign (u1 - u0 + 1).toNat u0 v0 (int (int (2 * minor) - major)) s

end

def drawLineLow (s : Screen) (x0 y0 x1 y1 color : Int) : Screen := drawAlong (fun s x y => s.plot x y color) s x0 y0 x1 y1

def drawLineHigh (s : Screen) (x0 y0 x1 y1 color : Int) : Screen := drawAlong (fun s y x => s.plot x y color) s y0 x0 y1 x1

def drawLine (s : Screen) (x0 y0 x1 y1 color : Int) : Screen :=
  let dy := if y1 < y0 then int (y0 - y1) else int (y1 - y0)
  let dx := if x1 < x0 then int (x0 - x1) else int (x1 - x0)
  if dy < dx then
    if x0 > x1 then s.drawLineLow x1 y1 x0 y0 color else s.drawLineLow x0 y0 x1 y1 color
  else if y0 > y1 then s.drawLineHigh x1 y1 x0 y0 color else s.drawLineHigh x0 y0 x1 y1 color

/-! ### The points of a line -/

-- far enough from the largest `int` for what the loop adds up
def Near (n : Int) : Prop := -2 ^ 29 < n ∧ n < 2 ^ 29

theorem Near.small {n : Int} (near : Near n) : Small n := ⟨by have := near.1; omega, by have := near.2; omega⟩

/-- A line with at least as many columns as rows. -/
structure Flat (u0 v0 du dv : Int) : Prop where
  column : Near u0
  row : Near v0
  lastColumn : Near (u0 + du)
  lastRow : Near (v0 + dv)
  nonneg : 0 ≤ du
  flat : |dv| ≤ du

-- `plot` draws one pixel, `turn` says which
def Draws (plot : Screen → Int → Int → Screen) (turn : Int × Int → Int × Int) (color : Int) : Prop :=
  ∀ s u v, Small u → Small v → Paints s (plot s u v) {turn (u, v)} color

def lineFrom (k u0 v0 du dv : Int) : Set (Int × Int) :=
  {p | ∃ t, k ≤ t ∧ t ≤ du ∧ p = (u0 + t, v0 + signOf dv * nearest du (|dv| * t))}

variable {plot : Screen → Int → Int → Screen} {turn : Int × Int → Int × Int} {u0 v0 du dv k : Int}

theorem lineFrom_step (inside : k ≤ du) : lineFrom k u0 v0 du dv =
    {(u0 + k, v0 + signOf dv * nearest du (|dv| * k))} ∪ lineFrom (k + 1) u0 v0 du dv := by
  ext p
  simp only [Set.mem_union, Set.mem_singleton_iff, lineFrom, Set.mem_ofPred_eq]
  constructor
  · rintro ⟨t, low, high, rfl⟩
    rcases low.eq_or_lt with rfl | more
    · exact .inl rfl
    · exact .inr ⟨t, more, high, rfl⟩
  · rintro (rfl | ⟨t, low, high, rfl⟩)
    · exact ⟨k, le_rfl, inside, rfl⟩
    · exact ⟨t, by omega, high, rfl⟩

theorem lineFrom_empty (behind : du < k) : lineFrom k u0 v0 du dv = ∅ := by
  refine Set.eq_empty_iff_forall_notMem.mpr ?_
  rintro p ⟨t, low, high, -⟩
  omega

theorem Flat.point (line : Flat u0 v0 du dv) (low : 0 ≤ k) (high : k ≤ du) :
    Small (u0 + k) ∧ Near (v0 + signOf dv * nearest du (|dv| * k)) := by
  obtain ⟨⟨_, _⟩, ⟨_, _⟩, ⟨_, _⟩, ⟨_, _⟩, nonneg, flat⟩ := line
  obtain ⟨zero, most⟩ := nearest_bounds (abs_nonneg dv) low high
  have rise := abs_eq_max_neg (a := dv)
  rw [Small, Near, signOf]
  split_ifs with negative <;> omega

theorem lineLoop_paints (plots : Draws plot turn color)
    (line : Flat u0 v0 du dv) (low : 0 ≤ k) (count : Nat) (left : k + count = du + 1) (s : Screen) :
    s.Paints (lineLoop plot du |dv| (signOf dv) count (u0 + k) (v0 + signOf dv * nearest du (|dv| * k)) (lineError du |dv| k) s)
      (turn '' lineFrom k u0 v0 du dv) color := by
  induction count generalizing k s with
  | zero =>
      refine (Paints.refl s color).congr ?_
      rw [lineFrom_empty (by omega), Set.image_empty]
  | succ count ih =>
      obtain ⟨column, row⟩ := line.point low (show k ≤ du by omega)
      have first := plots s _ _ column row.small
      rw [lineFrom_step (show k ≤ du by omega), Set.image_union, Set.image_singleton, lineLoop]
      rcases Nat.eq_zero_or_pos count with rfl | more
      · have last : s.Paints (plot s (u0 + k) (v0 + signOf dv * nearest du (|dv| * k)))
            ({turn (u0 + k, v0 + signOf dv * nearest du (|dv| * k))} ∪ turn '' lineFrom (k + 1) u0 v0 du dv) color := by
          refine first.congr ?_
          rw [lineFrom_empty (by omega), Set.image_empty, Set.union_empty]
        split_ifs <;> exact last
      · have positive : 0 < du := by omega
        have rest := ih (k := k + 1) (by omega) (by omega) (plot s (u0 + k) (v0 + signOf dv * nearest du (|dv| * k)))
        have here := lineError_bounds positive |dv| k
        have there := lineError_bounds positive |dv| (k + 1)
        have step := lineError_succ positive (abs_nonneg dv) line.flat k
        have above := nearest_succ positive (abs_nonneg dv) line.flat k
        have next := (line.point (k := k + 1) (by omega) (by omega)).2
        have span : du < 2 ^ 30 := by have := line.column.1; have := line.lastColumn.2; omega
        have size := abs_nonneg dv
        have flat := line.flat
        have right : int (u0 + k + 1) = u0 + (k + 1) := by
          rw [int_eq ⟨by have := column.1; omega, by have := line.lastColumn.2; omega⟩]
          ring
        split_ifs with up
        · rw [if_pos up] at above step
          have moved : v0 + signOf dv * nearest du (|dv| * k) + signOf dv = v0 + signOf dv * nearest du (|dv| * (k + 1)) := by
            rw [above]
            ring
          rw [moved, right, int_eq next.small, int_eq (n := |dv| - du) ⟨by omega, by omega⟩,
            int_eq (n := 2 * (|dv| - du)) ⟨by omega, by omega⟩, ← step, int_eq ⟨by omega, by omega⟩]
          exact first.trans rest
        · rw [if_neg up, Int.add_zero] at above
          rw [if_neg up] at step
          rw [above] at rest
          rw [right, int_eq (n := 2 * |dv|) ⟨by omega, by omega⟩, ← step, int_eq ⟨by omega, by omega⟩]
          exact first.trans rest

theorem drawAlong_paints (plots : Draws plot turn color)
    (line : Flat u0 v0 du dv) (s : Screen) :
    s.Paints (drawAlong plot s u0 v0 (u0 + du) (v0 + dv)) (turn '' lineAlong u0 v0 du dv) color := by
  have all := lineLoop_paints plots line le_rfl (du + 1).toNat (by have := line.nonneg; omega) s
  have rise := abs_eq_max_neg (a := dv)
  obtain ⟨⟨_, _⟩, ⟨_, _⟩, ⟨_, _⟩, ⟨_, _⟩, nonneg, flat⟩ := line
  have start : int (int (2 * |dv|) - du) = lineError du |dv| 0 := by
    rw [int_eq (n := 2 * |dv|) ⟨by omega, by omega⟩, int_eq ⟨by omega, by omega⟩, lineError, Int.mul_zero, nearest_zero nonneg]
    ring
  have side : (if int (v0 + dv - v0) < 0 then ((-1 : Int), int (-int (v0 + dv - v0))) else (1, int (v0 + dv - v0))) =
      (signOf dv, |dv|) := by
    rw [add_sub_cancel_left, int_eq (n := dv) ⟨by omega, by omega⟩, int_eq (n := -dv) ⟨by omega, by omega⟩, signOf]
    split_ifs with negative
    · rw [abs_of_neg negative]
    · rw [abs_of_nonneg (not_lt.mp negative)]
  rw [Int.add_zero, Int.mul_zero, nearest_zero nonneg, Int.mul_zero, Int.add_zero] at all
  simp only [drawAlong, side]
  rw [add_sub_cancel_left, int_eq (n := du) ⟨by omega, by omega⟩, start]
  exact all.congr (congrArg (Set.image turn) rfl)

/-- The end points of a line. -/
structure Ends (x0 y0 x1 y1 : Int) : Prop where
  x0 : Near x0
  y0 : Near y0
  x1 : Near x1
  y1 : Near y1

theorem Ends.symm (ends : Ends x0 y0 x1 y1) : Ends x1 y1 x0 y0 := ⟨ends.x1, ends.y1, ends.x0, ends.y0⟩

theorem drawLineLow_follows (ends : Ends x0 y0 x1 y1) (right : x0 ≤ x1) (flat : |y1 - y0| < |x1 - x0|) (s : Screen) (color : Int) :
    ∃ S, FollowsLine (x0, y0) (x1, y1) S ∧ s.Paints (s.drawLineLow x0 y0 x1 y1 color) S color := by
  obtain ⟨dx, lift⟩ : ∃ dx, x1 = x0 + dx := ⟨x1 - x0, (add_sub_cancel ..).symm⟩
  obtain ⟨dy, rise⟩ : ∃ dy, y1 = y0 + dy := ⟨y1 - y0, (add_sub_cancel ..).symm⟩
  subst lift rise
  have nonneg : 0 ≤ dx := by omega
  have less : |dy| ≤ dx := by
    rw [add_sub_cancel_left, add_sub_cancel_left, abs_of_nonneg nonneg] at flat
    exact flat.le
  have draws : Draws (fun s x y => s.plot x y color) id color := fun s _ _ column row => plot_paints s column row color
  have paints := drawAlong_paints draws ⟨ends.x0, ends.y0, ends.x1, ends.y1, nonneg, less⟩ s
  exact ⟨_, (lineAlong_follows nonneg less).flat flat, paints.congr (Set.image_id _)⟩

theorem drawLineHigh_follows (ends : Ends x0 y0 x1 y1) (down : y0 ≤ y1) (steep : |x1 - x0| ≤ |y1 - y0|) (s : Screen)
    (color : Int) :
    ∃ S, FollowsLine (x0, y0) (x1, y1) S ∧ s.Paints (s.drawLineHigh x0 y0 x1 y1 color) S color := by
  obtain ⟨dx, lift⟩ : ∃ dx, x1 = x0 + dx := ⟨x1 - x0, (add_sub_cancel ..).symm⟩
  obtain ⟨dy, rise⟩ : ∃ dy, y1 = y0 + dy := ⟨y1 - y0, (add_sub_cancel ..).symm⟩
  subst lift rise
  have nonneg : 0 ≤ dy := by omega
  have less : |dx| ≤ dy := by
    rw [add_sub_cancel_left, add_sub_cancel_left, abs_of_nonneg nonneg] at steep
    exact steep
  have draws : Draws (fun s y x => s.plot x y color) Prod.swap color := fun s _ _ row column => plot_paints s column row color
  have paints := drawAlong_paints draws ⟨ends.y0, ends.x0, ends.y1, ends.x1, nonneg, less⟩ s
  have along : FollowsAlong (Prod.swap (x0, y0)) (Prod.swap (x0 + dx, y0 + dy)) (lineAlong y0 x0 dy dx) :=
    lineAlong_follows nonneg less
  exact ⟨_, along.steep steep, paints.congr (congrFun Set.image_swap_eq_preimage_swap _)⟩

/-- A line has one pixel in every column, or every row where it is steep: the one nearest to it. The ends may be given in either
order. -/
theorem drawLine_follows (ends : Ends x0 y0 x1 y1) (s : Screen) (color : Int) :
    (∃ S, FollowsLine (x0, y0) (x1, y1) S ∧ s.Paints (s.drawLine x0 y0 x1 y1 color) S color) ∧
      s.drawLine x1 y1 x0 y0 color = s.drawLine x0 y0 x1 y1 color := by
  have span {a b : Int} (first : Near a) (second : Near b) : (if b < a then int (a - b) else int (b - a)) = |b - a| := by
    obtain ⟨⟨_, _⟩, _, _⟩ := And.intro first second
    rw [int_eq ⟨by omega, by omega⟩, int_eq ⟨by omega, by omega⟩]
    split_ifs with less
    · rw [abs_of_neg (by omega), neg_sub]
    · rw [abs_of_nonneg (by omega)]
  simp only [drawLine, span ends.y0 ends.y1, span ends.x0 ends.x1, span ends.y1 ends.y0, span ends.x1 ends.x0]
  rw [abs_sub_comm y0 y1, abs_sub_comm x0 x1]
  have reversed {s' : Screen} : (∃ S, FollowsLine (x1, y1) (x0, y0) S ∧ s.Paints s' S color) →
      ∃ S, FollowsLine (x0, y0) (x1, y1) S ∧ s.Paints s' S color := by
    rintro ⟨S, follows, paints⟩
    exact ⟨S, follows.symm, paints⟩
  by_cases flat : |y1 - y0| < |x1 - x0|
  · simp only [if_pos flat]
    have apart : x0 ≠ x1 := by
      rintro rfl
      rw [sub_self, abs_zero] at flat
      exact absurd flat (not_lt.mpr (abs_nonneg _))
    rcases apart.lt_or_gt with right | left
    · rw [if_neg right.not_gt, if_pos right]
      exact ⟨drawLineLow_follows ends right.le flat s color, rfl⟩
    · rw [if_pos left, if_neg left.not_gt]
      refine ⟨reversed (drawLineLow_follows ends.symm left.le ?_ s color), rfl⟩
      rwa [abs_sub_comm y0, abs_sub_comm x0]
  · simp only [if_neg flat]
    have steep := not_lt.mp flat
    rcases lt_trichotomy y0 y1 with down | same | up
    · rw [if_neg down.not_gt, if_pos down]
      exact ⟨drawLineHigh_follows ends down.le steep s color, rfl⟩
    · have point : x0 = x1 := by
        rw [same, sub_self, abs_zero] at steep
        exact (sub_eq_zero.mp (abs_nonpos_iff.mp steep)).symm
      subst same point
      rw [if_neg (lt_irrefl y0)]
      exact ⟨drawLineHigh_follows ends le_rfl (by rw [sub_self, sub_self]) s color, rfl⟩
    · rw [if_pos up, if_neg up.not_gt]
      refine ⟨reversed (drawLineHigh_follows ends.symm up.le ?_ s color), rfl⟩
      rwa [abs_sub_comm y0, abs_sub_comm x0]

theorem drawLine_follows_tile : (∃ S, FollowsLine (6, 4) (0, 1) S ∧ tile.Paints (tile.drawLine 6 4 0 1 7) S 7) ∧
    tile.drawLine 0 1 6 4 7 = tile.drawLine 6 4 0 1 7 :=
  drawLine_follows ⟨⟨by decide, by decide⟩, ⟨by decide, by decide⟩, ⟨by decide, by decide⟩, ⟨by decide, by decide⟩⟩ tile 7

/-! ## Circles -/

def plotInt (s : Screen) (x y color : Int) : Screen := s.plot (int x) (int y) color

-- the pixels that the loop draws in one round
def eightPixels (s : Screen) (x y x0 y0 color : Int) : Screen :=
  let s := s.plotInt (x + x0) (y + y0) color
  let s := s.plotInt (-x + x0) (y + y0) color
  let s := s.plotInt (x + x0) (-y + y0) color
  let s := s.plotInt (-x + x0) (-y + y0) color
  if x ≠ y then
    let s := s.plotInt (y + x0) (x + y0) color
    let s := s.plotInt (-y + x0) (x + y0) color
    let s := s.plotInt (y + x0) (-x + y0) color
    s.plotInt (-y + x0) (-x + y0) color
  else s

def circleLoop (x0 y0 color : Int) : (fuel : Nat) → (x y P : Int) → Screen → Option Screen
  | 0, _, _, _, _ => none
  | fuel + 1, x, y, P, s =>
      if x > y then
        let y := int (y + 1)
        let (x, P) := if P ≤ 0 then (x, int (P + int (2 * y + 1)))
          else (int (x - 1), int (P + int (2 * int (y - int (x - 1)) + 1)))
        if x < y then some s else circleLoop x0 y0 color fuel x y P (s.eightPixels x y x0 y0 color)
      else some s

def drawCircle (s : Screen) (x0 y0 r color : Int) : Option Screen :=
  let s := s.plotInt (r + x0) (0 + y0) color
  let s := s.plotInt (r + x0) (-0 + y0) color
  let s := s.plotInt (0 + x0) (r + y0) color
  let s := s.plotInt (-0 + x0) (r + y0) color
  circleLoop x0 y0 color (r.toNat + 1) r 0 (int (1 - r)) s

def shift (x0 y0 : Int) (S : Set (Int × Int)) : Set (Int × Int) := {p | (p.1 - x0, p.2 - y0) ∈ S}

variable {r P : Int}

theorem shift_union (x0 y0 : Int) (S T : Set (Int × Int)) : shift x0 y0 (S ∪ T) = shift x0 y0 S ∪ shift x0 y0 T := rfl

theorem shift_empty (x0 y0 : Int) : shift x0 y0 ∅ = ∅ := rfl

theorem plotInt_paints (s : Screen) {x y : Int} (column : Near x) (row : Near y) (nearX : Near x0) (nearY : Near y0)
    (color : Int) : s.Paints (s.plotInt (x + x0) (y + y0) color) (shift x0 y0 {(x, y)}) color := by
  obtain ⟨⟨_, _⟩, ⟨_, _⟩, ⟨_, _⟩, _, _⟩ := And.intro column (And.intro row (And.intro nearX nearY))
  have smallX : Small (x + x0) := ⟨by omega, by omega⟩
  have smallY : Small (y + y0) := ⟨by omega, by omega⟩
  rw [plotInt, int_eq smallX, int_eq smallY]
  refine (plot_paints s smallX smallY color).congr ?_
  ext ⟨i, j⟩
  simp only [shift, Set.mem_singleton_iff, Set.mem_ofPred_eq, Prod.mk.injEq]
  omega

theorem Near.inside {n k : Int} (near : Near n) (le : k ≤ n) (nonneg : 0 ≤ k) : Near k :=
  ⟨by omega, le.trans_lt near.2⟩

theorem Near.neg {n : Int} (near : Near n) : Near (-n) := ⟨neg_lt_neg near.2, neg_lt.mp near.1⟩

theorem eightPixels_paints (s : Screen) {x y : Int} (nonneg : 0 ≤ y) (below : y ≤ x) (near : Near x) (nearX : Near x0)
    (nearY : Near y0) (color : Int) : s.Paints (s.eightPixels x y x0 y0 color) (shift x0 y0 (octet x y)) color := by
  have near' : Near y := ⟨by have := near.2; omega, below.trans_lt near.2⟩
  have draw (s : Screen) {i j : Int} (column : Near i) (row : Near j) := plotInt_paints s column row nearX nearY color
  rw [eightPixels]
  have four := (((draw s near near').trans (draw _ near.neg near')).trans (draw _ near near'.neg)).trans
    (draw _ near.neg near'.neg)
  split_ifs with other
  · rw [octet_eight nonneg below]
    exact (((four.trans (draw _ near' near)).trans (draw _ near'.neg near)).trans (draw _ near' near.neg)).trans
      (draw _ near'.neg near.neg)
  · obtain rfl := not_not.mp other
    rw [octet_diagonal nonneg]
    exact four

/-- What the loop keeps: `x` is the column of the row `y`, and `P` decides on that of the next row. -/
structure Rounding (r x y P : Int) : Prop where
  nonneg : 0 ≤ y
  near : NearRoot (r * r - y * y) x
  inside : x ≤ r
  decision : P = (y + 1) * (y + 1) + x * x - x - r * r

namespace Rounding
variable {x y : Int}

theorem start (positive : 0 < r) : Rounding r r 0 (1 - r) := by
  refine ⟨le_rfl, ⟨by linarith, by linarith⟩, le_rfl, by ring⟩

theorem bounds (state : Rounding r x y P) : -2 * x < P ∧ P ≤ 2 * y + 1 := by
  obtain ⟨nonneg, ⟨low, high⟩, -, rfl⟩ := state
  constructor <;> linarith

theorem keep (state : Rounding r x y P) (low : P ≤ 0) : Rounding r x (y + 1) (P + (2 * (y + 1) + 1)) := by
  have column := state.near.column state.nonneg
  rw [state.decision] at low
  rw [if_pos low] at column
  refine ⟨Int.le_add_one state.nonneg, column, state.inside, ?_⟩
  rw [state.decision]
  ring

theorem back (state : Rounding r x y P) (high : 0 < P) (inside : y + 1 ≤ x - 1) :
    Rounding r (x - 1) (y + 1) (P + (2 * (y + 1 - (x - 1)) + 1)) := by
  have column := state.near.column state.nonneg
  rw [state.decision] at high
  rw [if_neg high.not_ge] at column
  refine ⟨Int.le_add_one state.nonneg, column inside, (sub_one_lt x).le.trans state.inside, ?_⟩
  rw [state.decision]
  ring

end Rounding

theorem circleLoop_paints {x y : Int} (state : Rounding r x y P) (radius : Near r) (nearX : Near x0) (nearY : Near y0)
    (fuel : Nat) (enough : x - y < fuel) (positive : 0 < fuel) (s : Screen) (color : Int) :
    ∃ s', circleLoop x0 y0 color fuel x y P s = some s' ∧ s.Paints s' (shift x0 y0 (circleFrom r y)) color := by
  induction fuel generalizing x y P s with
  | zero => cases positive
  | succ fuel ih =>
      have nonneg := state.nonneg
      have nothing (empty : circleFrom r y = ∅) : ∃ s', some s = some s' ∧ s.Paints s' (shift x0 y0 (circleFrom r y)) color :=
        ⟨s, rfl, (Paints.refl s color).congr (by rw [empty, shift_empty])⟩
      have column : Near x := ⟨by have := state.near.positive; omega, state.inside.trans_lt radius.2⟩
      -- a row further, with the column `x'`
      have row {x' P' : Int} (next : Rounding r x' (y + 1) P') (below : y + 1 ≤ x') (left : x' ≤ x) :
          ∃ s', circleLoop x0 y0 color fuel x' (y + 1) P' (s.eightPixels x' (y + 1) x0 y0 color) = some s' ∧
            s.Paints s' (shift x0 y0 (circleFrom r y)) color := by
        have eight := eightPixels_paints s next.nonneg below (column.inside left (next.nonneg.trans below)) nearX nearY color
        obtain ⟨s', ran, rest⟩ := ih next (by omega) (by omega) (s.eightPixels x' (y + 1) x0 y0 color)
        refine ⟨s', ran, ?_⟩
        rw [circleFrom_next next.near, shift_union]
        exact eight.trans rest
      rw [circleLoop]
      by_cases above : x > y
      · obtain ⟨_, _⟩ := column
        obtain ⟨low, high⟩ := state.bounds
        have up : int (y + 1) = y + 1 := int_eq ⟨by omega, by omega⟩
        rw [if_pos above, up]
        by_cases keep : P ≤ 0
        · have error : int (P + int (2 * (y + 1) + 1)) = P + (2 * (y + 1) + 1) := by
            rw [int_eq (n := 2 * (y + 1) + 1) ⟨by omega, by omega⟩, int_eq ⟨by omega, by omega⟩]
          simp only [if_pos keep, error]
          rw [if_neg (by omega)]
          exact row (state.keep keep) above le_rfl
        · have error : int (P + int (2 * int (y + 1 - (x - 1)) + 1)) = P + (2 * (y + 1 - (x - 1)) + 1) := by
            rw [int_eq (n := y + 1 - (x - 1)) ⟨by omega, by omega⟩,
              int_eq (n := 2 * (y + 1 - (x - 1)) + 1) ⟨by omega, by omega⟩, int_eq ⟨by omega, by omega⟩]
          have left : int (x - 1) = x - 1 := int_eq ⟨by omega, by omega⟩
          simp only [if_neg keep, error, left]
          by_cases last : x - 1 < y + 1
          · rw [if_pos last]
            refine nothing (circleFrom_last nonneg state.near (by omega) ?_)
            rw [← state.decision]
            exact not_le.mp keep
          · rw [if_neg last]
            exact row (state.back (not_le.mp keep) (not_lt.mp last)) (not_lt.mp last) (sub_one_lt x).le
      · rw [if_neg above]
        exact nothing (circleFrom_above nonneg state.near (not_lt.mp above))

theorem circle_drawn (positive : 0 < r) :
    {(r, 0)} ∪ {(r, -0)} ∪ {(0, r)} ∪ {(-0, r)} ∪ circleFrom r 0 = circle r \ {(-r, 0), (0, -r)} := by
  have axes : ({(r, 0)} ∪ {(r, -0)} ∪ {(0, r)} ∪ {(-0, r)} : Set (Int × Int)) = octet r 0 \ {(-r, 0), (0, -r)} := by
    ext ⟨i, j⟩
    simp only [octet, Set.mem_union, Set.mem_sdiff, Set.mem_insert_iff, Set.mem_singleton_iff, Set.mem_ofPred_eq, Prod.mk.injEq,
      abs_eq_max_neg]
    omega
  have rest : circleFrom r 0 = circleFrom r 0 \ {(-r, 0), (0, -r)} := by
    refine (sdiff_eq_left.mpr (Set.disjoint_right.mpr ?_)).symm
    rintro p (rfl | rfl) ⟨-, inner⟩
    · exact absurd inner (not_lt.mpr ((min_le_right _ _).trans abs_zero.le))
    · exact absurd inner (not_lt.mpr ((min_le_left _ _).trans abs_zero.le))
  rw [circle_eq positive, Set.union_sdiff_distrib, ← axes, ← rest]

/-- The circle is drawn without its leftmost and its topmost point. -/
theorem drawCircle_paints (positive : 0 < r) (radius : Near r) (nearX : Near x0) (nearY : Near y0) (s : Screen) (color : Int) :
    ∃ s', s.drawCircle x0 y0 r color = some s' ∧ s.Paints s' (shift x0 y0 (circle r \ {(-r, 0), (0, -r)})) color := by
  have zero : Near 0 := ⟨by decide, by decide⟩
  have draw (s : Screen) {i j : Int} (column : Near i) (row : Near j) := plotInt_paints s column row nearX nearY color
  have axes := (((draw s radius zero).trans (draw _ radius zero.neg)).trans (draw _ zero radius)).trans (draw _ zero.neg radius)
  have first : int (1 - r) = 1 - r := int_eq ⟨by have := radius.2; omega, by omega⟩
  obtain ⟨s', ran, rest⟩ := circleLoop_paints (Rounding.start positive) radius nearX nearY (r.toNat + 1) (by omega)
    (Nat.succ_pos _) ((((s.plotInt (r + x0) (0 + y0) color).plotInt (r + x0) (-0 + y0) color).plotInt (0 + x0) (r + y0)
      color).plotInt (-0 + x0) (r + y0) color) color
  rw [drawCircle, first]
  refine ⟨s', ran, (axes.trans rest).congr ?_⟩
  rw [← circle_drawn positive]
  rfl

theorem drawCircle_paints_tile : ∃ s', tile.drawCircle 4 4 3 7 = some s' ∧
    tile.Paints s' (shift 4 4 (circle 3 \ {(-3, 0), (0, -3)})) 7 :=
  drawCircle_paints (by decide) ⟨by decide, by decide⟩ ⟨by decide, by decide⟩ ⟨by decide, by decide⟩ tile 7

end Screen
end Kerosene.Video
