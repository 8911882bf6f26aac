import Mathlib.Data.Set.Insert
import Kerosene.Lib.Fields

/-!
# The pixels of the framebuffer

`video_framebuffer_plot_pixel`, `video_framebuffer_get_pixel` and `video_framebuffer_fill_rectangle`.
-/

namespace Kerosene.Video
open Lib

-- an `int` wraps
def int (n : Int) : Int := n.bmod (2 ^ 32)

def unsigned (n : Int) : Nat := (n % 2 ^ 32).toNat

def Small (n : Int) : Prop := -2 ^ 31 ≤ n ∧ n < 2 ^ 31

theorem int_eq {n : Int} (small : Small n) : int n = n := by
  obtain ⟨low, high⟩ := small
  rw [int, Int.bmod_def]
  split_ifs <;> omega

/-- The linear framebuffer. -/
structure Screen where
  framebuffer : Bytes
  fbPitch : Nat
  fbWidth : Nat
  fbHeight : Nat
  fbBpp : Nat
  width : fbWidth < 2 ^ 31
  height : fbHeight < 2 ^ 31
  rows : fbWidth * (fbBpp / 8) ≤ fbPitch

namespace Screen

def withMemory (s : Screen) (m : Bytes) : Screen := { s with framebuffer := m }

def plotPixel (s : Screen) (x y : Nat) (color : Int) : Screen :=
  if x ≥ s.fbWidth ∨ y ≥ s.fbHeight then s
  else if s.fbBpp = 8 then s.withMemory (s.framebuffer.setField (y * s.fbPitch + x) 1 (unsigned color))
  else if s.fbBpp = 16 then s.withMemory (s.framebuffer.setField (y * s.fbPitch + 2 * x) 2 (unsigned color))
  else if s.fbBpp = 32 then s.withMemory (s.framebuffer.setField (y * s.fbPitch + 4 * x) 4 (unsigned color))
  else s

def getPixel (s : Screen) (x y : Nat) : Int :=
  if x ≥ s.fbWidth ∨ y ≥ s.fbHeight then 0
  else if s.fbBpp = 8 then s.framebuffer.field (y * s.fbPitch + x) 1
  else if s.fbBpp = 16 then s.framebuffer.field (y * s.fbPitch + 2 * x) 2
  else if s.fbBpp = 32 then int (s.framebuffer.field (y * s.fbPitch + 4 * x) 4)
  else 0

-- as it is called, with two `int`s
def plot (s : Screen) (x y color : Int) : Screen := s.plotPixel (unsigned x) (unsigned y) color

/-! ## Where a pixel is -/

variable {s s' s₁ s₂ : Screen} {x y x' y' a n : Nat} {color : Int} {A B : Set (Int × Int)}

-- the bytes of a pixel in the depths that are drawn
def pixelSize (s : Screen) : Nat := if s.fbBpp = 8 ∨ s.fbBpp = 16 ∨ s.fbBpp = 32 then s.fbBpp / 8 else 0

def pixelAddr (s : Screen) (x y : Nat) : Nat := y * s.fbPitch + s.pixelSize * x

def OnScreen (s : Screen) (x y : Nat) : Prop := x < s.fbWidth ∧ y < s.fbHeight

instance onScreenDecidable (s : Screen) (x y : Nat) : Decidable (s.OnScreen x y) :=
  inferInstanceAs (Decidable (x < s.fbWidth ∧ y < s.fbHeight))

def Holds (s : Screen) (x y a : Nat) : Prop := s.pixelAddr x y ≤ a ∧ a < s.pixelAddr x y + s.pixelSize

/-- The colour as the depth keeps it. -/
def shown (s : Screen) (color : Int) : Int := int (unsigned color % 256 ^ s.pixelSize : Nat)

@[simp] theorem withMemory_framebuffer (s : Screen) (m : Bytes) : (s.withMemory m).framebuffer = m := rfl

@[simp] theorem withMemory_self (s : Screen) : s.withMemory s.framebuffer = s := rfl

@[simp] theorem withMemory_withMemory (s : Screen) (m m' : Bytes) : (s.withMemory m).withMemory m' = s.withMemory m' := rfl

theorem not_onScreen : ¬ s.OnScreen x y ↔ x ≥ s.fbWidth ∨ y ≥ s.fbHeight := by
  rw [OnScreen, not_and_or, not_lt, not_lt]

theorem plotPixel_eq (s : Screen) (x y : Nat) (color : Int) : s.plotPixel x y color =
    if s.OnScreen x y then s.withMemory (s.framebuffer.setField (s.pixelAddr x y) s.pixelSize (unsigned color)) else s := by
  rw [plotPixel, pixelAddr, pixelSize]
  by_cases outside : x ≥ s.fbWidth ∨ y ≥ s.fbHeight
  · rw [if_pos outside, if_neg (not_onScreen.mpr outside)]
  · rw [if_neg outside, if_pos (not_not.mp (mt not_onScreen.mp outside))]
    by_cases byte : s.fbBpp = 8
    · rw [if_pos byte, if_pos (.inl byte), byte, Nat.one_mul]
    rw [if_neg byte]
    by_cases half : s.fbBpp = 16
    · rw [if_pos half, if_pos (.inr (.inl half)), half]
    rw [if_neg half]
    by_cases word : s.fbBpp = 32
    · rw [if_pos word, if_pos (.inr (.inr word)), word]
    rw [if_neg word, if_neg (by omega)]
    have none : s.framebuffer.setField (y * s.fbPitch + 0 * x) 0 (unsigned color) = s.framebuffer :=
      funext fun b => Bytes.setField_of_outside (by omega)
    rw [none, withMemory_self]

theorem field_small (m : Bytes) (a n : Nat) : m.field a n < 256 ^ n := by
  induction n with
  | zero => exact Nat.one_pos
  | succ n ih =>
      have byte := (m (a + n)).toNat_lt
      have most := Nat.mul_le_mul_left (256 ^ n) (Nat.le_of_lt_succ byte)
      rw [Bytes.field, pow_succ]
      omega

theorem getPixel_eq (s : Screen) (x y : Nat) :
    s.getPixel x y = if s.OnScreen x y then int (s.framebuffer.field (s.pixelAddr x y) s.pixelSize) else 0 := by
  rw [getPixel, pixelAddr, pixelSize]
  by_cases outside : x ≥ s.fbWidth ∨ y ≥ s.fbHeight
  · rw [if_pos outside, if_neg (not_onScreen.mpr outside)]
  · rw [if_neg outside, if_pos (not_not.mp (mt not_onScreen.mp outside))]
    by_cases byte : s.fbBpp = 8
    · have small := field_small s.framebuffer (y * s.fbPitch + x) 1
      have size : 8 / 8 = 1 := rfl
      rw [if_pos byte, if_pos (.inl byte), byte, size, Nat.one_mul, int_eq ⟨by omega, by omega⟩]
    rw [if_neg byte]
    by_cases half : s.fbBpp = 16
    · have small := field_small s.framebuffer (y * s.fbPitch + 2 * x) 2
      have size : 16 / 8 = 2 := rfl
      rw [if_pos half, if_pos (.inr (.inl half)), half, size, int_eq ⟨by omega, by omega⟩]
    rw [if_neg half]
    by_cases word : s.fbBpp = 32
    · rw [if_pos word, if_pos (.inr (.inr word)), word]
    rw [if_neg word, if_neg (by omega)]
    exact (int_eq ⟨by decide, by decide⟩).symm

theorem rowSize (s : Screen) : s.pixelSize * s.fbWidth ≤ s.fbPitch := by
  have rows := s.rows
  rw [Nat.mul_comm] at rows
  rw [pixelSize]
  split_ifs
  · exact rows
  · omega

theorem pixel_apart (here : s.OnScreen x y) (there : s.OnScreen x' y') (other : (x, y) ≠ (x', y')) :
    s.pixelAddr x y + s.pixelSize ≤ s.pixelAddr x' y' ∨ s.pixelAddr x' y' + s.pixelSize ≤ s.pixelAddr x y := by
  have row {x y x' y' : Nat} (here : s.OnScreen x y) (above : y < y') : s.pixelAddr x y + s.pixelSize ≤ s.pixelAddr x' y' := by
    have width := Nat.mul_le_mul_left s.pixelSize (Nat.succ_le_of_lt here.1)
    have height := Nat.mul_le_mul_right s.fbPitch (Nat.succ_le_of_lt above)
    have size := s.rowSize
    rw [Nat.succ_eq_add_one, Nat.add_mul, Nat.one_mul] at height
    rw [Nat.succ_eq_add_one, Nat.mul_add, Nat.mul_one] at width
    rw [pixelAddr, pixelAddr]
    omega
  have column {x x' y : Nat} (left : x < x') : s.pixelAddr x y + s.pixelSize ≤ s.pixelAddr x' y := by
    have width := Nat.mul_le_mul_left s.pixelSize (Nat.succ_le_of_lt left)
    rw [Nat.succ_eq_add_one, Nat.mul_add, Nat.mul_one] at width
    rw [pixelAddr, pixelAddr]
    omega
  rcases lt_trichotomy y y' with above | rfl | below
  · exact .inl (row here above)
  · rcases lt_trichotomy x x' with left | rfl | right
    · exact .inl (column left)
    · exact absurd rfl other
    · exact .inr (column right)
  · exact .inr (row there below)

/-! ## Painting -/

/-- The pixels of the region that are on the screen have the colour, and no other byte has changed. -/
structure Paints (s s' : Screen) (region : Set (Int × Int)) (color : Int) : Prop where
  size : s' = s.withMemory s'.framebuffer
  inside : ∀ x y : Nat, s.OnScreen x y → ((x : Int), (y : Int)) ∈ region → s'.getPixel x y = s.shown color
  outside : ∀ x y : Nat, ((x : Int), (y : Int)) ∉ region → s'.getPixel x y = s.getPixel x y
  kept : ∀ a, (∀ x y : Nat, s.OnScreen x y → ((x : Int), (y : Int)) ∈ region → ¬ s.Holds x y a) →
    s'.framebuffer a = s.framebuffer a

theorem Paints.refl (s : Screen) (color : Int) : s.Paints s ∅ color :=
  ⟨rfl, fun _ _ _ member => absurd member (Set.notMem_empty _), fun _ _ _ => rfl, fun _ _ => rfl⟩

theorem Paints.trans (first : s.Paints s₁ A color) (second : s₁.Paints s₂ B color) : s.Paints s₂ (A ∪ B) color := by
  obtain ⟨size, inside, outside, kept⟩ := first
  generalize s₁.framebuffer = m at size
  subst size
  obtain ⟨size', inside', outside', kept'⟩ := second
  refine ⟨size', fun x y on member => ?_, fun x y other => ?_, fun a free => ?_⟩
  · by_cases again : ((x : Int), (y : Int)) ∈ B
    · exact inside' x y on again
    · rw [outside' x y again]
      exact inside x y on (member.resolve_right again)
  · rw [Set.mem_union, not_or] at other
    rw [outside' x y other.2, outside x y other.1]
  · rw [kept' a fun x y on member => free x y on (.inr member)]
    exact kept a fun x y on member => free x y on (.inl member)

theorem Paints.congr (paints : s.Paints s' A color) (same : A = B) : s.Paints s' B color := same ▸ paints

theorem unsigned_lt_iff {n : Int} {w : Nat} (small : Small n) (width : w < 2 ^ 31) : unsigned n < w ↔ 0 ≤ n ∧ n < w := by
  obtain ⟨low, high⟩ := small
  rw [unsigned]
  omega

theorem plot_paints {x y : Int} (s : Screen) (smallX : Small x) (smallY : Small y) (color : Int) :
    s.Paints (s.plot x y color) {(x, y)} color := by
  have here {i j : Nat} (on : s.OnScreen i j) :
      ((i : Int), (j : Int)) ∈ ({(x, y)} : Set (Int × Int)) ↔ i = unsigned x ∧ j = unsigned y := by
    have width := s.width
    have height := s.height
    obtain ⟨left, below⟩ := on
    rw [Set.mem_singleton_iff, Prod.mk.injEq, unsigned, unsigned]
    obtain ⟨lowX, highX⟩ := smallX
    obtain ⟨lowY, highY⟩ := smallY
    omega
  rw [plot, plotPixel_eq]
  by_cases on : s.OnScreen (unsigned x) (unsigned y)
  · rw [if_pos on]
    refine ⟨rfl, fun i j there member => ?_, fun i j other => ?_, fun a free => ?_⟩
    · obtain ⟨rfl, rfl⟩ := (here there).mp member
      rw [getPixel_eq]
      exact (if_pos there).trans (congrArg (fun n : Nat => int n) (Bytes.field_setField ..))
    · rw [getPixel_eq, getPixel_eq]
      by_cases there : s.OnScreen i j
      · have apart := pixel_apart there on fun same => other ((here there).mpr (Prod.mk.inj same))
        rw [if_pos there]
        refine (if_pos there).trans (congrArg (fun n : Nat => int n) ?_)
        exact Bytes.field_setField_of_outside apart
      · rw [if_neg there]
        exact if_neg there
    · have free' := free _ _ on ((here on).mpr ⟨rfl, rfl⟩)
      rw [Holds] at free'
      exact Bytes.setField_of_outside (by omega)
  · rw [if_neg on]
    refine ⟨rfl, fun i j there member => ?_, fun _ _ _ => rfl, fun _ _ => rfl⟩
    obtain ⟨rfl, rfl⟩ := (here there).mp member
    exact absurd there on

end Screen
end Kerosene.Video
