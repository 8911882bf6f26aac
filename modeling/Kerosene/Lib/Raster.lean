import Mathlib.Algebra.Order.Ring.Abs
import Mathlib.Algebra.Order.Ring.Int
import Mathlib.Algebra.Order.Group.Unbundled.Int
import Mathlib.Data.Set.Basic
import Mathlib.Tactic.Linarith
import Mathlib.Tactic.LinearCombination
import Mathlib.Tactic.Ring

/-!
# Lines and circles on a grid

The points of the integer grid that lie nearest to a line or a circle, and a rectangle of points visited one by one.
-/

namespace Kerosene.Lib

/-! ## Rounding a quotient -/

/-- `k` is `num / den`, rounded to the nearest integer and at a half downwards. -/
def Rounds (den num k : Int) : Prop := 2 * (num - den * k) ≤ den ∧ -den < 2 * (num - den * k)

def nearest (den num : Int) : Int := (2 * num + den - 1) / (2 * den)

variable {den num k minor major t : Int}

theorem rounds_nearest (positive : 0 < den) (num : Int) : Rounds den num (nearest den num) := by
  have low := Int.mul_ediv_self_le (x := 2 * num + den - 1) (k := 2 * den) (by omega)
  have high := Int.lt_mul_ediv_self_add (x := 2 * num + den - 1) (k := 2 * den) (by omega)
  rw [← nearest, Int.mul_assoc] at low high
  constructor <;> linarith

theorem Rounds.unique (positive : 0 < den) (rounds : Rounds den num k) : k = nearest den num := by
  have other := rounds_nearest positive num
  rcases lt_trichotomy k (nearest den num) with less | same | more
  · have apart := Int.mul_le_mul_of_nonneg_left (Int.add_one_le_of_lt less) positive.le
    rw [Int.mul_add] at apart
    linarith [rounds.1, other.2]
  · exact same
  · have apart := Int.mul_le_mul_of_nonneg_left (Int.add_one_le_of_lt more) positive.le
    rw [Int.mul_add] at apart
    linarith [rounds.2, other.1]

theorem nearest_zero (nonneg : 0 ≤ den) : nearest den 0 = 0 := by
  rcases nonneg.eq_or_lt with rfl | positive
  · rfl
  · exact ((Rounds.unique positive (k := 0) (by constructor <;> simp [positive.le, positive])).symm)

/-- The error that a line carries from one column to the next. -/
def lineError (major minor t : Int) : Int := 2 * (minor * (t + 1)) - major - 2 * (major * nearest major (minor * t))

theorem nearest_succ (positive : 0 < major) (nonneg : 0 ≤ minor) (flat : minor ≤ major) (t : Int) :
    nearest major (minor * (t + 1)) = nearest major (minor * t) + if lineError major minor t > 0 then 1 else 0 := by
  have here := rounds_nearest positive (minor * t)
  rw [Rounds] at here
  symm
  refine Rounds.unique positive ?_
  rw [lineError, Int.mul_add minor, Int.mul_one]
  split_ifs with up <;> constructor <;> linarith

theorem lineError_succ (positive : 0 < major) (nonneg : 0 ≤ minor) (flat : minor ≤ major) (t : Int) :
    lineError major minor (t + 1) =
      lineError major minor t + if lineError major minor t > 0 then 2 * (minor - major) else 2 * minor := by
  have up := nearest_succ positive nonneg flat t
  rw [lineError, up]
  split_ifs with more
  all_goals
    rw [lineError]
    ring

theorem lineError_bounds (positive : 0 < major) (minor t : Int) :
    2 * minor - 2 * major < lineError major minor t ∧ lineError major minor t ≤ 2 * minor := by
  have here := rounds_nearest positive (minor * t)
  rw [Rounds] at here
  rw [lineError]
  constructor <;> linarith

/-! ## Lines -/

def signOf (n : Int) : Int := if n < 0 then -1 else 1

theorem signOf_mul_abs (n : Int) : signOf n * |n| = n := by
  rw [signOf]
  split_ifs with negative
  · rw [abs_of_neg negative]
    ring
  · rw [abs_of_nonneg (not_lt.mp negative), one_mul]

/-- One point for each of the `du + 1` columns, the one nearest to the line. -/
def lineAlong (u₀ v₀ du dv : Int) : Set (Int × Int) :=
  {p | ∃ t, 0 ≤ t ∧ t ≤ du ∧ p = (u₀ + t, v₀ + signOf dv * nearest du (|dv| * t))}

theorem nearest_bounds (nonneg : 0 ≤ minor) (low : 0 ≤ t) (high : t ≤ major) :
    0 ≤ nearest major (minor * t) ∧ nearest major (minor * t) ≤ minor := by
  rcases (low.trans high).eq_or_lt with rfl | positive
  · rw [le_antisymm high low, Int.mul_zero, nearest_zero le_rfl]
    exact ⟨le_rfl, nonneg⟩
  have here := rounds_nearest positive (minor * t)
  have below := Int.mul_nonneg nonneg low
  have above := Int.mul_le_mul_of_nonneg_left high nonneg
  rw [Rounds] at here
  generalize nearest major (minor * t) = k at *
  constructor
  · by_contra negative
    have := Int.mul_le_mul_of_nonneg_left (show k ≤ -1 by omega) positive.le
    linarith
  · by_contra more
    have apart := Int.mul_le_mul_of_nonneg_left (show minor + 1 ≤ k by omega) positive.le
    rw [Int.mul_add, Int.mul_comm major minor] at apart
    linarith

theorem nearest_all (nonneg : 0 ≤ major) (flat : minor ≤ major) (low : 0 ≤ minor) : nearest major (minor * major) = minor := by
  rcases nonneg.eq_or_lt with rfl | positive
  · rw [Int.mul_zero, nearest_zero le_rfl]
    omega
  · refine (Rounds.unique positive ?_).symm
    rw [Rounds, Int.mul_comm minor]
    constructor <;> simp [positive, nonneg]

-- twice the area between the line from `p` to `q` and the point
def cross (p q r : Int × Int) : Int := (q.1 - p.1) * (r.2 - p.2) - (q.2 - p.2) * (r.1 - p.1)

theorem cross_comm (p q r : Int × Int) : cross q p r = -cross p q r := by
  rw [cross, cross]
  ring

def Between (a b n : Int) : Prop := min a b ≤ n ∧ n ≤ max a b

theorem Between.comm {a b n : Int} : Between b a n ↔ Between a b n := by rw [Between, Between, min_comm, max_comm]

/-- In every column between `p` and `q` there is one point, the one nearest to the line. -/
structure FollowsAlong (p q : Int × Int) (s : Set (Int × Int)) : Prop where
  start : p ∈ s
  stop : q ∈ s
  inside : ∀ r ∈ s, Between p.1 q.1 r.1 ∧ Between p.2 q.2 r.2
  close : ∀ r ∈ s, 2 * |cross p q r| ≤ |q.1 - p.1|
  columns : ∀ x, Between p.1 q.1 x → ∃! y, (x, y) ∈ s

theorem lineAlong_follows {u₀ v₀ du dv : Int} (nonneg : 0 ≤ du) (flat : |dv| ≤ du) :
    FollowsAlong (u₀, v₀) (u₀ + du, v₀ + dv) (lineAlong u₀ v₀ du dv) := by
  have bounds {t : Int} (low : 0 ≤ t) (high : t ≤ du) := nearest_bounds (abs_nonneg dv) low high
  refine ⟨⟨0, le_rfl, nonneg, ?_⟩, ⟨du, nonneg, le_rfl, ?_⟩, ?_, ?_, ?_⟩
  · rw [Int.mul_zero, nearest_zero nonneg, Int.mul_zero, Int.add_zero, Int.add_zero]
  · rw [nearest_all nonneg flat (abs_nonneg dv), signOf_mul_abs]
  · rintro r ⟨t, low, high, rfl⟩
    obtain ⟨zero, most⟩ := bounds low high
    have rise := abs_eq_max_neg (a := dv)
    rw [Between, Between, signOf]
    dsimp only
    split_ifs with negative <;> omega
  · rintro r ⟨t, low, high, rfl⟩
    have lift : cross (u₀, v₀) (u₀ + du, v₀ + dv) (u₀ + t, v₀ + signOf dv * nearest du (|dv| * t)) =
        signOf dv * (du * nearest du (|dv| * t) - |dv| * t) := by
      have sign := signOf_mul_abs dv
      rw [cross]
      dsimp only
      linear_combination t * sign
    have unit : |signOf dv| = 1 := by
      rw [signOf]
      split_ifs <;> rfl
    rw [lift, abs_mul, unit, one_mul]
    dsimp only
    rw [add_sub_cancel_left, abs_of_nonneg nonneg]
    rcases nonneg.eq_or_lt with rfl | positive
    · rw [le_antisymm high low, Int.mul_zero, Int.zero_mul]
      rfl
    · obtain ⟨above, below⟩ := rounds_nearest positive (|dv| * t)
      rcases abs_cases (du * nearest du (|dv| * t) - |dv| * t) with ⟨value, -⟩ | ⟨value, -⟩ <;> rw [value] <;> linarith
  · rintro x ⟨low, high⟩
    dsimp only at low high
    refine ⟨v₀ + signOf dv * nearest du (|dv| * (x - u₀)), ⟨x - u₀, by omega, by omega, by rw [add_sub_cancel]⟩, ?_⟩
    rintro y ⟨t, -, -, same⟩
    rw [Prod.mk.injEq] at same
    obtain ⟨rfl, rfl⟩ := same
    rw [add_sub_cancel_left]

/-- A set that follows the line from `p` to `q`: one point for each step along the longer axis, the one nearest to the line. -/
structure FollowsLine (p q : Int × Int) (s : Set (Int × Int)) : Prop where
  start : p ∈ s
  stop : q ∈ s
  inside : ∀ r ∈ s, Between p.1 q.1 r.1 ∧ Between p.2 q.2 r.2
  close : ∀ r ∈ s, 2 * |cross p q r| ≤ max |q.1 - p.1| |q.2 - p.2|
  columns : |q.2 - p.2| < |q.1 - p.1| → ∀ x, Between p.1 q.1 x → ∃! y, (x, y) ∈ s
  rows : |q.1 - p.1| ≤ |q.2 - p.2| → ∀ y, Between p.2 q.2 y → ∃! x, (x, y) ∈ s

theorem FollowsLine.symm {p q : Int × Int} {s : Set (Int × Int)} (follows : FollowsLine p q s) : FollowsLine q p s := by
  obtain ⟨start, stop, inside, close, columns, rows⟩ := follows
  refine ⟨stop, start, fun r member => (inside r member).imp Between.comm.mpr Between.comm.mpr, fun r member => ?_, ?_, ?_⟩
  · rw [cross_comm, abs_neg, abs_sub_comm p.1, abs_sub_comm p.2]
    exact close r member
  · intro flat x between
    rw [abs_sub_comm p.1, abs_sub_comm p.2] at flat
    exact columns flat x (Between.comm.mpr between)
  · intro steep y between
    rw [abs_sub_comm p.1, abs_sub_comm p.2] at steep
    exact rows steep y (Between.comm.mpr between)

theorem FollowsAlong.flat {p q : Int × Int} {s : Set (Int × Int)} (follows : FollowsAlong p q s)
    (flat : |q.2 - p.2| < |q.1 - p.1|) : FollowsLine p q s :=
  ⟨follows.start, follows.stop, follows.inside, fun r member => (follows.close r member).trans (le_max_left _ _),
    fun _ => follows.columns, fun steep => absurd flat (not_lt.mpr steep)⟩

theorem FollowsAlong.steep {p q : Int × Int} {s : Set (Int × Int)} (follows : FollowsAlong p.swap q.swap s)
    (steep : |q.1 - p.1| ≤ |q.2 - p.2|) : FollowsLine p q (Set.preimage Prod.swap s) := by
  refine ⟨follows.start, follows.stop, fun r member => (follows.inside r.swap member).symm, fun r member => ?_,
    fun flat => absurd steep (not_le.mpr flat), fun _ => follows.columns⟩
  have turned : cross p.swap q.swap r.swap = -cross p q r := by
    rw [cross, cross]
    simp only [Prod.fst_swap, Prod.snd_swap]
    ring
  have close := follows.close r.swap member
  rw [turned, abs_neg] at close
  exact close.trans (le_max_right _ _)

/-! ## Circles -/

/-- `a` is the integer nearest to the square root of `n + 1`: `(a - 1 / 2) ^ 2 < n + 1 < (a + 1 / 2) ^ 2`. -/
def NearRoot (n a : Int) : Prop := a * a - a ≤ n ∧ n < a * a + a

theorem NearRoot.positive {n a : Int} (near : NearRoot n a) : 0 < a := by
  have := near.1.trans_lt near.2
  omega

theorem NearRoot.mono {n n' a a' : Int} (near : NearRoot n a) (near' : NearRoot n' a') (le : n ≤ n') : a ≤ a' := by
  by_contra more
  have positive := near'.positive
  have apart : a' * a' + a' ≤ a * a - a := by nlinarith [show a' + 1 ≤ a by omega]
  linarith [near.1, near'.2]

theorem NearRoot.unique {n a a' : Int} (near : NearRoot n a) (near' : NearRoot n a') : a = a' :=
  le_antisymm (near.mono near' le_rfl) (near'.mono near le_rfl)

/-- The points nearest to the circle around the origin whose radius is the square root of `r * r + 1`, in the direction of the
longer coordinate. -/
def circle (r : Int) : Set (Int × Int) := {p | NearRoot (r * r - min |p.1| |p.2| * min |p.1| |p.2|) (max |p.1| |p.2|)}

theorem NearRoot.column {r x y : Int} (near : NearRoot (r * r - y * y) x) (nonneg : 0 ≤ y) :
    if (y + 1) * (y + 1) + x * x - x - r * r ≤ 0 then NearRoot (r * r - (y + 1) * (y + 1)) x
    else y + 1 ≤ x - 1 → NearRoot (r * r - (y + 1) * (y + 1)) (x - 1) := by
  obtain ⟨low, high⟩ := near
  split_ifs with keep
  · exact ⟨by linarith, by nlinarith⟩
  · intro inside
    exact ⟨by nlinarith, by nlinarith⟩

/-- The points whose coordinates are `a` and `b`, in one order or the other and with any signs. -/
def octet (a b : Int) : Set (Int × Int) := {p | max |p.1| |p.2| = a ∧ min |p.1| |p.2| = b}

-- without the columns up to `y`
def circleFrom (r y : Int) : Set (Int × Int) := {p | p ∈ circle r ∧ y < min |p.1| |p.2|}

variable {r x y : Int}

theorem octet_diagonal (nonneg : 0 ≤ x) : octet x x = {(x, x)} ∪ {(-x, x)} ∪ {(x, -x)} ∪ {(-x, -x)} := by
  ext ⟨i, j⟩
  simp only [octet, Set.mem_union, Set.mem_singleton_iff, Set.mem_ofPred_eq, Prod.mk.injEq, abs_eq_max_neg]
  omega

theorem octet_eight (nonneg : 0 ≤ y) (below : y ≤ x) : octet x y = {(x, y)} ∪ {(-x, y)} ∪ {(x, -y)} ∪ {(-x, -y)} ∪
    {(y, x)} ∪ {(-y, x)} ∪ {(y, -x)} ∪ {(-y, -x)} := by
  ext ⟨i, j⟩
  simp only [octet, Set.mem_union, Set.mem_singleton_iff, Set.mem_ofPred_eq, Prod.mk.injEq, abs_eq_max_neg]
  omega

theorem circle_eq (positive : 0 < r) : circle r = octet r 0 ∪ circleFrom r 0 := by
  have axis : NearRoot (r * r - 0 * 0) r := ⟨by linarith, by linarith⟩
  ext p
  have nonneg : 0 ≤ min |p.1| |p.2| := le_min (abs_nonneg _) (abs_nonneg _)
  rw [Set.mem_union, octet, circleFrom, circle, Set.mem_ofPred_eq, Set.mem_ofPred_eq, Set.mem_ofPred_eq]
  rcases nonneg.eq_or_lt with zero | more
  · rw [← zero]
    constructor
    · intro near
      exact .inl ⟨near.unique axis, rfl⟩
    · rintro (⟨same, -⟩ | ⟨-, less⟩)
      · rwa [same]
      · exact absurd less (lt_irrefl 0)
  · constructor
    · intro near
      exact .inr ⟨near, more⟩
    · rintro (⟨-, zero⟩ | ⟨near, -⟩)
      · exact absurd zero more.ne'
      · exact near

theorem sq_le_of_le {a b : Int} (nonneg : 0 ≤ a) (le : a ≤ b) : r * r - b * b ≤ r * r - a * a :=
  Int.sub_le_sub_left (Int.mul_le_mul le le nonneg (nonneg.trans le)) _

theorem circleFrom_next (near : NearRoot (r * r - (y + 1) * (y + 1)) x) :
    circleFrom r y = octet x (y + 1) ∪ circleFrom r (y + 1) := by
  ext p
  rw [Set.mem_union, octet, circleFrom, circleFrom, circle, Set.mem_ofPred_eq, Set.mem_ofPred_eq, Set.mem_ofPred_eq,
    Set.mem_ofPred_eq]
  constructor
  · rintro ⟨root, more⟩
    rcases (Int.add_one_le_of_lt more).eq_or_lt with here | later
    · rw [← here] at root
      exact .inl ⟨root.unique near, here.symm⟩
    · exact .inr ⟨root, later⟩
  · rintro (⟨most, least⟩ | ⟨root, later⟩)
    · rw [most, least]
      exact ⟨near, Int.lt_succ y⟩
    · exact ⟨root, (Int.lt_succ y).trans later⟩

theorem circleFrom_above (nonneg : 0 ≤ y) (near : NearRoot (r * r - y * y) x) (above : x ≤ y) : circleFrom r y = ∅ := by
  refine Set.eq_empty_iff_forall_notMem.mpr ?_
  rintro p ⟨root, more⟩
  have column := root.mono near (sq_le_of_le nonneg more.le)
  have order := min_le_max (a := |p.1|) (b := |p.2|)
  omega

theorem circleFrom_last (nonneg : 0 ≤ y) (near : NearRoot (r * r - y * y) x) (last : x ≤ y + 1)
    (out : 0 < (y + 1) * (y + 1) + x * x - x - r * r) : circleFrom r y = ∅ := by
  refine Set.eq_empty_iff_forall_notMem.mpr ?_
  rintro p ⟨root, more⟩
  have column := root.mono near (sq_le_of_le nonneg more.le)
  have order := min_le_max (a := |p.1|) (b := |p.2|)
  have corner : min |p.1| |p.2| = y + 1 ∧ max |p.1| |p.2| = x ∧ x = y + 1 := by omega
  have low := root.1
  rw [corner.1, corner.2.1] at low
  linarith

/-! ## Scanning a rectangle of points -/

section
variable {σ : Type*} {body : Nat → Nat → σ → σ} (inv : Set (Nat × Nat) → σ → Prop) {width height n : Nat} {s : σ}

def upTo (body : Nat → σ → σ) : (n : Nat) → σ → σ
  | 0, s => s
  | i + 1, s => body i (upTo body i s)

-- line by line
def scan (body : Nat → Nat → σ → σ) (width height : Nat) : σ → σ := upTo (fun j => upTo (fun i => body i j) width) height

def points (width height : Nat) : Set (Nat × Nat) := {p | p.1 < width ∧ p.2 < height}

theorem upTo_line {V : Set (Nat × Nat)} {j : Nat} (fresh : ∀ i, (i, j) ∉ V) (start : inv V s)
    (step : ∀ i < width, ∀ V s, (i, j) ∉ V → inv V s → inv (V ∪ {(i, j)}) (body i j s)) (le : n ≤ width) :
    inv (V ∪ {p | p.1 < n ∧ p.2 = j}) (upTo (fun i => body i j) n s) := by
  induction n with
  | zero =>
      have none : V ∪ {p | p.1 < 0 ∧ p.2 = j} = V := by
        refine Set.union_eq_self_of_subset_right ?_
        rintro p ⟨less, -⟩
        cases less
      rw [none]
      exact start
  | succ i ih =>
      have more : V ∪ {p | p.1 < i + 1 ∧ p.2 = j} = V ∪ {p | p.1 < i ∧ p.2 = j} ∪ {(i, j)} := by
        ext ⟨a, b⟩
        simp only [Set.mem_union, Set.mem_ofPred_eq, Set.mem_singleton_iff, Prod.mk.injEq, or_assoc]
        refine or_congr_right ?_
        omega
      rw [more]
      refine step i le _ _ ?_ (ih (Nat.le_of_succ_le le))
      rintro (old | ⟨less, -⟩)
      · exact fresh i old
      · exact lt_irrefl i less

/-- What holds at the start and is kept by the visit of each new point holds when all have been visited. -/
theorem scan_rule (start : inv ∅ s)
    (step : ∀ i < width, ∀ j < height, ∀ V s, (i, j) ∉ V → inv V s → inv (V ∪ {(i, j)}) (body i j s)) :
    inv (points width height) (scan body width height s) := by
  have lines (n : Nat) (le : n ≤ height) : inv (points width n) (upTo (fun j => upTo (fun i => body i j) width) n s) := by
    induction n with
    | zero =>
        have none : points width 0 = ∅ := by
          refine Set.eq_empty_iff_forall_notMem.mpr ?_
          rintro p ⟨-, less⟩
          cases less
        rw [none]
        exact start
    | succ j ih =>
        have more : points width (j + 1) = points width j ∪ {p | p.1 < width ∧ p.2 = j} := by
          ext ⟨a, b⟩
          simp only [points, Set.mem_union, Set.mem_ofPred_eq]
          omega
        rw [more]
        refine upTo_line inv (fun i member => lt_irrefl j member.2) (ih (Nat.le_of_succ_le le)) (fun i less => ?_) le_rfl
        exact step i less j le
  exact lines height le_rfl

end

end Kerosene.Lib
