import Mathlib.Algebra.BigOperators.Intervals
import Mathlib.Algebra.BigOperators.Ring.Finset
import Mathlib.Algebra.Order.BigOperators.Group.Finset
import Mathlib.Tactic.IntervalCases
import Mathlib.Tactic.Ring

/-!
# `gmtime` and `mktime`

`int` has 32 bits and `time_t` has 64; both wrap around. Divisions truncate.
-/

namespace Kerosene.Libc

def int (x : Int) : Int := (x + 2 ^ 31) % 2 ^ 32 - 2 ^ 31
def timeT (x : Int) : Int := (x + 2 ^ 63) % 2 ^ 64 - 2 ^ 63

def secsPerDay : Int := 86400

-- 1/1/1970 was a Thursday
def epochWeekday : Int := 4

structure Tm where
  sec : Int
  min : Int
  hour : Int
  mday : Int
  mon : Int
  year : Int
  wday : Int
  yday : Int

def isLeapYear (year : Int) : Bool :=
  if year.tmod 400 = 0 then true else if year.tmod 4 = 0 then year.tmod 100 != 0 else false

def daysInMonth (month : Int) (leapYear : Bool) : Int :=
  if month ≤ 7 then
    if month.tmod 2 = 1 then 31 else if month = 2 then 28 + leapYear.toInt else 30
  else if month.tmod 2 = 0 then 31 else 30

/-- Both loops of `gmtime`: while `clone` has `sec` of year or month `n` in it, these are taken off. -/
def takeOff (sec : Int → Int) : (fuel : Nat) → (clone n : Int) → Option (Int × Int)
  | 0, _, _ => none
  | fuel + 1, clone, n => if clone ≥ sec n then takeOff sec fuel (timeT (clone - sec n)) (int (n + 1)) else some (clone, n)

def yearSec (year : Int) : Int :=
  if isLeapYear year then int (int (365 * secsPerDay) + secsPerDay) else int (365 * secsPerDay)

def monthSec (leapYear : Bool) (month : Int) : Int := int (daysInMonth month leapYear * secsPerDay)

-- `(int)((year-1)/n) - (int)(1970/n)`
def multiples (year n : Int) : Int := int ((int (year - 1)).tdiv n - (1970 : Int).tdiv n)

-- no round takes off less than a second
def gmtime (timer : Int) : Option Tm := do
  let (clone, year) ← takeOff yearSec (timer.toNat + 1) timer 1970
  let yday := int (clone.tdiv secsPerDay)
  let (clone, mon) ← takeOff (monthSec (isLeapYear year)) (timer.toNat + 1) clone 1
  let mday := int (1 + clone.tdiv secsPerDay)
  let clone := clone.tmod secsPerDay
  let hour := int (clone.tdiv 3600)
  let clone := clone.tmod 3600
  let min := int (clone.tdiv 60)
  let sec := int (clone.tmod 60)
  let eday := int (int (year - 1970) * 365)
  let eday := int (eday + multiples year 4)
  let eday := int (eday - multiples year 100)
  let eday := int (eday + multiples year 400)
  let eday := int (eday + yday)
  return ⟨sec, min, hour, mday, mon, year, (int (epochWeekday + eday)).tmod 7, yday⟩

def mktime (tp : Tm) : Int :=
  let leapYear := isLeapYear tp.year
  let t := int (int (tp.year - 1970) * 365)
  let t := timeT (t + multiples tp.year 4)
  let t := timeT (t - multiples tp.year 100)
  let t := timeT (t + multiples tp.year 400)
  let t := timeT (t * secsPerDay)
  -- `for(int m = 1; m < (tp->tm_mon); m++)`
  let t := (List.range (tp.mon - 1).toNat).foldl (fun t (i : Nat) => timeT (t + monthSec leapYear (i + 1))) t
  let t := timeT (t + int (int (tp.mday - 1) * secsPerDay))
  let t := timeT (t + tp.sec)
  let t := timeT (t + int (tp.min * 60))
  timeT (t + int (tp.hour * 3600))

/-! ## The calendar -/

def Leap (year : Nat) : Prop := 4 ∣ year ∧ (¬ 100 ∣ year ∨ 400 ∣ year)

instance (year : Nat) : Decidable (Leap year) := inferInstanceAs (Decidable (_ ∧ _))

def yearLength (year : Nat) : Nat := if Leap year then 366 else 365

def monthLengths (year : Nat) : List Nat := [31, if Leap year then 29 else 28, 31, 30, 31, 30, 31, 31, 30, 31, 30, 31]

/-- The length of a month, counted from 0. -/
def monthLength (year month : Nat) : Nat := (monthLengths year).getD month 0

-- days from the epoch to the first day of a year, and from that to the first day of a month
def yearStart (year : Nat) : Nat := ∑ k ∈ Finset.range (year - 1970), yearLength (1970 + k)
def monthStart (year month : Nat) : Nat := ∑ m ∈ Finset.range month, monthLength year m

namespace Tm

structure Valid (d : Tm) : Prop where
  mon : 1 ≤ d.mon ∧ d.mon ≤ 12
  mday : 1 ≤ d.mday ∧ d.mday ≤ monthLength d.year.toNat (d.mon - 1).toNat
  hour : 0 ≤ d.hour ∧ d.hour < 24
  min : 0 ≤ d.min ∧ d.min < 60
  sec : 0 ≤ d.sec ∧ d.sec < 60

/-- The zero-based day of the year. -/
def dayOfYear (d : Tm) : Int := monthStart d.year.toNat (d.mon - 1).toNat + (d.mday - 1)

def seconds (d : Tm) : Int :=
  (yearStart d.year.toNat + d.dayOfYear) * 86400 + d.hour * 3600 + d.min * 60 + d.sec

end Tm

/-! ## Machine integers and lengths -/

theorem int_eq {x : Int} (low : -2147483648 ≤ x) (high : x < 2147483648) : int x = x := by
  unfold int
  omega

theorem timeT_eq {x : Int} (low : -9223372036854775808 ≤ x) (high : x < 9223372036854775808) : timeT x = x := by
  unfold timeT
  omega

theorem isLeapYear_eq (year : Nat) : isLeapYear year = decide (Leap year) := by
  rw [isLeapYear, Int.tmod_eq_emod_of_nonneg (by omega), Int.tmod_eq_emod_of_nonneg (by omega),
    Int.tmod_eq_emod_of_nonneg (by omega)]
  by_cases leap : Leap year
  · rw [decide_eq_true leap]
    obtain ⟨four, century⟩ := leap
    split_ifs with quad
    · rfl
    · have : (year : Int) % 100 ≠ 0 := by omega
      simpa using this
    · omega
  · rw [decide_eq_false leap]
    have : ¬ (4 ∣ year ∧ (¬ 100 ∣ year ∨ 400 ∣ year)) := leap
    split_ifs with quad four
    · omega
    · have : (year : Int) % 100 = 0 := by omega
      simp [this]
    · rfl

theorem daysInMonth_eq {month : Nat} (inside : month < 12) (year : Nat) :
    daysInMonth (month + 1) (decide (Leap year)) = monthLength year month := by
  by_cases leap : Leap year <;> interval_cases month <;> simp [daysInMonth, monthLength, monthLengths, leap, Bool.toInt]

theorem monthLength_le (year : Nat) {m : Nat} (inside : m < 12) : 28 ≤ monthLength year m ∧ monthLength year m ≤ 31 := by
  by_cases leap : Leap year <;> interval_cases m <;> simp [monthLength, monthLengths, leap]

theorem monthStart_year (year : Nat) : monthStart year 12 = yearLength year := by
  by_cases leap : Leap year <;> simp [monthStart, Finset.sum_range_succ, monthLength, monthLengths, yearLength, leap]

theorem yearLength_le (year : Nat) : 365 ≤ yearLength year ∧ yearLength year ≤ 366 := by
  rw [yearLength]
  split_ifs <;> omega

theorem yearStart_eq {y : Nat} (epoch : 1970 ≤ y) : (yearStart y : Int) =
    ((y : Int) - 1970) * 365 + ((y - 1 : Int) / 4 - 492) - ((y - 1 : Int) / 100 - 19) + ((y - 1 : Int) / 400 - 4) := by
  induction y, epoch using Nat.le_induction with
  | base => rfl
  | succ y epoch ih =>
      have next : yearStart (y + 1) = yearStart y + yearLength y := by
        rw [yearStart, yearStart, show y + 1 - 1970 = (y - 1970) + 1 by omega, Finset.sum_range_succ,
          show 1970 + (y - 1970) = y by omega]
      have four : (y : Int) / 4 = (y - 1 : Int) / 4 + if 4 ∣ y then 1 else 0 := by split_ifs <;> omega
      have hundred : (y : Int) / 100 = (y - 1 : Int) / 100 + if 100 ∣ y then 1 else 0 := by split_ifs <;> omega
      have fourHundred : (y : Int) / 400 = (y - 1 : Int) / 400 + if 400 ∣ y then 1 else 0 := by split_ifs <;> omega
      rw [next, Nat.cast_add, ih, yearLength]
      push_cast
      rw [add_sub_cancel_right, four, hundred, fourHundred]
      by_cases quad : 400 ∣ y
      · have century : 100 ∣ y := Dvd.dvd.trans (by decide) quad
        have leap : Leap y := ⟨Dvd.dvd.trans (by decide) quad, .inr quad⟩
        rw [if_pos leap.1, if_pos century, if_pos quad, if_pos leap]
        ring
      · by_cases century : 100 ∣ y
        · have four : 4 ∣ y := Dvd.dvd.trans (by decide) century
          have common : ¬ Leap y := fun leap => leap.2.elim (fun other => other century) quad
          rw [if_pos four, if_pos century, if_neg quad, if_neg common]
          ring
        · by_cases four : 4 ∣ y
          · have leap : Leap y := ⟨four, .inl century⟩
            rw [if_pos four, if_neg century, if_neg quad, if_pos leap]
            ring
          · have common : ¬ Leap y := fun leap => four leap.1
            rw [if_neg four, if_neg century, if_neg quad, if_neg common]
            ring

theorem multiples_eq {year : Nat} {n : Int} (epoch : 1970 ≤ year) (bound : year ≤ 1000000) (positive : 0 < n) :
    multiples year n = (year - 1 : Int) / n - 1970 / n := by
  have first : 0 ≤ (year - 1 : Int) / n ∧ (year - 1 : Int) / n ≤ year - 1 :=
    ⟨Int.ediv_nonneg (by omega) (by omega), Int.ediv_le_self _ (by omega)⟩
  have second : 0 ≤ (1970 : Int) / n ∧ (1970 : Int) / n ≤ 1970 :=
    ⟨Int.ediv_nonneg (by omega) (by omega), Int.ediv_le_self _ (by omega)⟩
  rw [multiples, int_eq (x := year - 1) (by omega) (by omega), Int.tdiv_eq_ediv_of_nonneg (by omega),
    Int.tdiv_eq_ediv_of_nonneg (by omega), int_eq (by omega) (by omega)]

/-! ## The loops -/

theorem takeOff_eq {sec : Int → Int} {f : Nat → Nat} {i j n : Nat} {r : Int}
    (lengths : ∀ k ≤ j, sec (n + k) = f k) (inside : 0 ≤ r ∧ r < f j)
    (bound : (∑ k ∈ Finset.range j, f k : Nat) + r < 9223372036854775808) (small : n + j < 2147483647) (enough : j < i) :
    takeOff sec i ((∑ k ∈ Finset.range j, f k : Nat) + r) n = some (r, (n + j : Int)) := by
  induction j generalizing i n f with
  | zero =>
      obtain ⟨i, rfl⟩ : ∃ m, i = m + 1 := ⟨i - 1, by omega⟩
      have first := lengths 0 le_rfl
      rw [Nat.cast_zero, add_zero] at first
      rw [Finset.sum_range_zero, Nat.cast_zero, zero_add, takeOff, first, if_neg (by omega), add_zero]
  | succ j ih =>
      obtain ⟨i, rfl⟩ : ∃ m, i = m + 1 := ⟨i - 1, by omega⟩
      have first := lengths 0 (Nat.zero_le _)
      rw [Nat.cast_zero, add_zero] at first
      rw [Finset.sum_range_succ'] at bound ⊢
      have rest := ih (i := i) (n := n + 1) (f := fun k => f (k + 1)) (fun k within => ?_) inside
        (by omega) (by omega) (by omega)
      · rw [takeOff, first, if_pos (by omega), timeT_eq (by omega) (by omega), int_eq (by omega) (by omega)]
        have less : ((∑ k ∈ Finset.range j, f (k + 1) + f 0 : Nat) : Int) + r - f 0 =
            (∑ k ∈ Finset.range j, f (k + 1) : Nat) + r := by
          omega
        rw [less]
        push_cast at rest ⊢
        rw [rest]
        congr 2
        ring
      · have := lengths (k + 1) (by omega)
        push_cast at this ⊢
        rw [← this]
        congr 1
        ring

theorem exists_span {length : Nat → Nat} {n t : Nat} (bound : t < ∑ k ∈ Finset.range n, length k) :
    ∃ j r, j < n ∧ t = ∑ k ∈ Finset.range j, length k + r ∧ r < length j := by
  induction n with
  | zero => simp at bound
  | succ n ih =>
      rw [Finset.sum_range_succ] at bound
      by_cases before : t < ∑ k ∈ Finset.range n, length k
      · obtain ⟨j, r, inside, rest⟩ := ih before
        exact ⟨j, r, by omega, rest⟩
      · exact ⟨n, t - ∑ k ∈ Finset.range n, length k, by omega, by omega, by omega⟩

/-! ## Dates and their seconds -/

section
variable {d : Tm} {year month : Nat}

theorem monthSec_eq (inside : month < 12) (year : Nat) :
    monthSec (decide (Leap year)) (month + 1) = (monthLength year month * 86400 : Nat) := by
  have length := monthLength_le year inside
  rw [monthSec, daysInMonth_eq inside, secsPerDay, int_eq (by omega) (by omega)]
  push_cast
  ring

theorem yearSec_eq (year k : Nat) : yearSec (year + k) = (yearLength (year + k) * 86400 : Nat) := by
  rw [yearSec, ← Nat.cast_add, isLeapYear_eq, yearLength, secsPerDay]
  by_cases leap : Leap (year + k)
  · rw [decide_eq_true leap, if_pos leap]
    rfl
  · rw [decide_eq_false leap, if_neg leap]
    rfl

theorem monthStart_mono {m n : Nat} (le : m ≤ n) (year : Nat) : monthStart year m ≤ monthStart year n :=
  Finset.sum_le_sum_of_subset (Finset.range_subset_range.mpr le)

theorem monthStart_succ (year month : Nat) : monthStart year (month + 1) = monthStart year month + monthLength year month :=
  Finset.sum_range_succ ..

theorem monthStart_add_le {m : Nat} (inside : m < 12) (year : Nat) :
    monthStart year m + monthLength year m ≤ yearLength year := by
  rw [← monthStart_year, ← monthStart_succ]
  exact monthStart_mono inside year

theorem le_monthStart (inside : month ≤ 12) (year : Nat) : month ≤ monthStart year month := by
  induction month with
  | zero => exact Nat.zero_le _
  | succ month ih =>
      have length := monthLength_le year (m := month) (by omega)
      have before := ih (by omega)
      rw [monthStart_succ]
      omega

theorem yearStart_le (epoch : 1970 ≤ year) (bound : year ≤ 1000000) : yearStart year ≤ 366000000 := by
  have closed := yearStart_eq epoch
  omega

theorem foldl_months {t : Int} (inside : month ≤ 12) (year : Nat) (positive : 0 ≤ t) (bound : t ≤ 9000000000000000000) :
    (List.range month).foldl (fun t (i : Nat) => timeT (t + monthSec (decide (Leap year)) (i + 1))) t =
      t + (monthStart year month * 86400 : Nat) := by
  induction month with
  | zero => simp [monthStart]
  | succ month ih =>
      have below := monthStart_add_le (m := month) (by omega) year
      have length := yearLength_le year
      rw [List.range_succ, List.foldl_append, ih (by omega), List.foldl_cons, List.foldl_nil, monthSec_eq (by omega),
        timeT_eq (by push_cast; omega) (by push_cast; omega), monthStart_succ]
      push_cast
      ring

/-- A date of the years in question, with year and month as numbers and the bounds that all its parts keep. -/
structure Dated (d : Tm) (year month : Nat) : Prop where
  isYear : d.year = year
  isMonth : d.mon = month + 1
  years : 1970 ≤ year ∧ year ≤ 1000000
  months : month < 12
  days : 1 ≤ d.mday ∧ d.mday ≤ monthLength year month
  hours : 0 ≤ d.hour ∧ d.hour < 24
  minutes : 0 ≤ d.min ∧ d.min < 60
  seconds : 0 ≤ d.sec ∧ d.sec < 60
  dayOfYear : d.dayOfYear = monthStart year month + (d.mday - 1)
  total : d.seconds = (yearStart year + d.dayOfYear) * 86400 + d.hour * 3600 + d.min * 60 + d.sec

theorem Tm.Valid.dated (valid : d.Valid) (epoch : 1970 ≤ d.year) (bound : d.year ≤ 1000000) : ∃ year month, Dated d year month := by
  obtain ⟨year, isYear⟩ : ∃ y : Nat, d.year = y := ⟨d.year.toNat, by omega⟩
  obtain ⟨month, isMonth⟩ : ∃ m : Nat, d.mon = m + 1 := ⟨(d.mon - 1).toNat, by have := valid.mon; omega⟩
  have months := valid.mon
  have days := valid.mday
  rw [isYear, isMonth, add_sub_cancel_right, Int.toNat_natCast, Int.toNat_natCast] at days
  refine ⟨year, month, isYear, isMonth, by omega, by omega, days, valid.hour, valid.min, valid.sec, ?_, ?_⟩
  · rw [Tm.dayOfYear, isYear, isMonth, add_sub_cancel_right, Int.toNat_natCast, Int.toNat_natCast]
  · rw [Tm.seconds, isYear, Int.toNat_natCast]

namespace Dated
variable (dated : Dated d year month)
include dated

theorem bounds : yearStart year ≤ 366000000 ∧ 0 ≤ d.dayOfYear ∧ d.dayOfYear < yearLength year ∧ yearLength year ≤ 366 := by
  have starts := yearStart_le dated.years.1 dated.years.2
  have below := monthStart_add_le dated.months year
  have days := dated.days
  have dayOfYear := dated.dayOfYear
  exact ⟨starts, by omega, by omega, (yearLength_le year).2⟩

-- the part of a time that `gmtime` has left
theorem takeOff_years : takeOff yearSec (d.seconds.toNat + 1) d.seconds 1970 =
    some (d.dayOfYear * 86400 + d.hour * 3600 + d.min * 60 + d.sec, (year : Int)) := by
  have bounds := dated.bounds
  have years := dated.years
  have hours := dated.hours
  have minutes := dated.minutes
  have seconds := dated.seconds
  have total := dated.total
  have last : 1970 + (year - 1970) = year := by omega
  have sum : ∑ k ∈ Finset.range (year - 1970), yearLength (1970 + k) * 86400 = yearStart year * 86400 :=
    (Finset.sum_mul ..).symm
  have atLeast : year - 1970 ≤ yearStart year := by
    have closed := yearStart_eq years.1
    omega
  have loop := takeOff_eq (i := d.seconds.toNat + 1)
    (j := year - 1970) (n := 1970) (r := d.dayOfYear * 86400 + d.hour * 3600 + d.min * 60 + d.sec)
    (fun k _ => yearSec_eq 1970 k) (by rw [last]; push_cast; omega) (by rw [sum]; push_cast; omega) (by omega) (by omega)
  rw [sum] at loop
  have whole : ((yearStart year * 86400 : Nat) : Int) + (d.dayOfYear * 86400 + d.hour * 3600 + d.min * 60 + d.sec) = d.seconds := by
    rw [total]
    push_cast
    ring
  rw [whole, ← Nat.cast_add, last] at loop
  exact loop

theorem takeOff_months {fuel : Nat} (enough : month < fuel) : takeOff (monthSec (decide (Leap year))) fuel
    (d.dayOfYear * 86400 + d.hour * 3600 + d.min * 60 + d.sec) 1 =
      some ((d.mday - 1) * 86400 + d.hour * 3600 + d.min * 60 + d.sec, (month + 1 : Int)) := by
  have months := dated.months
  have days := dated.days
  have hours := dated.hours
  have minutes := dated.minutes
  have seconds := dated.seconds
  have below := monthStart_add_le months year
  have lengths := yearLength_le year
  have sum : ∑ k ∈ Finset.range month, monthLength year k * 86400 = monthStart year month * 86400 := (Finset.sum_mul ..).symm
  have loop := takeOff_eq (f := fun k => monthLength year k * 86400) (i := fuel)
    (j := month) (n := 1) (r := (d.mday - 1) * 86400 + d.hour * 3600 + d.min * 60 + d.sec)
    (fun k within => by rw [Nat.cast_one, add_comm]; exact monthSec_eq (by omega) year)
    (by push_cast; omega) (by rw [sum]; push_cast; omega) (by omega) (by omega)
  have whole : ((monthStart year month * 86400 : Nat) : Int) + ((d.mday - 1) * 86400 + d.hour * 3600 + d.min * 60 + d.sec) =
      d.dayOfYear * 86400 + d.hour * 3600 + d.min * 60 + d.sec := by
    rw [dated.dayOfYear]
    push_cast
    ring
  rw [sum, whole, Nat.cast_one, add_comm (1 : Int)] at loop
  exact loop

theorem mktime_eq : mktime d = d.seconds := by
  obtain ⟨isYear, isMonth, ⟨epoch, bound⟩, months, days, hours, minutes, seconds, dayOfYear, total⟩ := dated
  have start := yearStart_eq epoch
  have starts := yearStart_le epoch bound
  have below := monthStart_add_le months year
  have lengths := yearLength_le year
  rw [total, dayOfYear, mktime, isYear, isMonth, add_sub_cancel_right, Int.toNat_natCast, isLeapYear_eq,
    multiples_eq epoch bound (by omega), multiples_eq epoch bound (by omega), multiples_eq epoch bound (by omega), secsPerDay]
  simp (disch := omega) only [int_eq, timeT_eq]
  have closed : ((year : Int) - 1970) * 365 + ((year - 1 : Int) / 4 - 1970 / 4) - ((year - 1 : Int) / 100 - 1970 / 100) +
      ((year - 1 : Int) / 400 - 1970 / 400) = yearStart year := start.symm
  rw [closed, foldl_months (by omega) year (by omega) (by omega)]
  push_cast
  simp (disch := omega) only [timeT_eq]
  ring

theorem gmtime_eq : gmtime d.seconds = some { d with wday := (4 + d.seconds / 86400) % 7, yday := d.dayOfYear } := by
  have bounds := dated.bounds
  have total := dated.total
  have years := dated.takeOff_years
  have months : takeOff (monthSec (decide (Leap year))) (d.seconds.toNat + 1)
      (d.dayOfYear * 86400 + d.hour * 3600 + d.min * 60 + d.sec) 1 =
        some ((d.mday - 1) * 86400 + d.hour * 3600 + d.min * 60 + d.sec, (month + 1 : Int)) := by
    have atLeast := le_monthStart dated.months.le year
    have := dated.dayOfYear
    have := dated.days
    have := dated.hours
    have := dated.minutes
    have := dated.seconds
    exact dated.takeOff_months (by omega)
  obtain ⟨isYear, isMonth, ⟨epoch, bound⟩, inside, days, hours, minutes, seconds, -, -⟩ := dated
  have start := yearStart_eq epoch
  have length := monthLength_le year inside
  simp only [gmtime, years, Option.bind_eq_bind, Option.bind_some, isLeapYear_eq, months]
  rw [multiples_eq epoch bound (by omega), multiples_eq epoch bound (by omega), multiples_eq epoch bound (by omega),
    secsPerDay, epochWeekday]
  simp (disch := omega) only [Int.tdiv_eq_ediv_of_nonneg, Int.tmod_eq_emod_of_nonneg, int_eq]
  have closed : ((year : Int) - 1970) * 365 + ((year - 1 : Int) / 4 - 1970 / 4) - ((year - 1 : Int) / 100 - 1970 / 100) +
      ((year - 1 : Int) / 400 - 1970 / 400) = yearStart year := start.symm
  rw [closed, isYear, isMonth, Option.pure_def, Option.some.injEq, Tm.mk.injEq]
  refine ⟨by omega, by omega, by omega, by omega, rfl, rfl, ?_, by omega⟩
  have day : d.seconds / 86400 = yearStart year + d.dayOfYear := by omega
  have yday : (d.dayOfYear * 86400 + d.hour * 3600 + d.min * 60 + d.sec) / 86400 = d.dayOfYear := by omega
  rw [day, yday]

end Dated

theorem exists_dated {t : Int} (positive : 0 ≤ t) (bound : t < yearStart 1000001 * 86400) :
    ∃ d : Tm, d.Valid ∧ 1970 ≤ d.year ∧ d.year ≤ 1000000 ∧ d.seconds = t := by
  obtain ⟨n, rfl⟩ := Int.eq_ofNat_of_zero_le positive
  obtain ⟨j, yday, years, split, inside⟩ := exists_span (n := 1000001 - 1970)
    (t := n / 86400) (show n / 86400 < yearStart 1000001 by omega)
  have year : n / 86400 = yearStart (1970 + j) + yday := by
    rw [yearStart, show 1970 + j - 1970 = j by omega]
    exact split
  rw [← monthStart_year] at inside
  obtain ⟨month, mday, months, day, within⟩ := exists_span (n := 12) inside
  have ofYear : yday = monthStart (1970 + j) month + mday := day
  have isYear : (((1970 + j : Nat) : Int)).toNat = 1970 + j := Int.toNat_natCast _
  have isMonth : ((month : Int) + 1 - 1).toNat = month := by omega
  refine ⟨⟨n % 60, n % 3600 / 60, n % 86400 / 3600, mday + 1, month + 1, (1970 + j : Nat), 0, 0⟩,
    ⟨⟨?_, ?_⟩, ⟨?_, ?_⟩, ⟨?_, ?_⟩, ⟨?_, ?_⟩, ?_, ?_⟩, ?_, ?_, ?_⟩
  case refine_4 =>
    rw [isYear, isMonth]
    dsimp only
    omega
  case refine_13 =>
    rw [Tm.seconds, Tm.dayOfYear, isYear, isMonth]
    dsimp only
    omega
  all_goals
    dsimp only
    omega

end

/-- `gmtime` and `mktime` are inverse to each other, and `gmtime` gives valid dates with the day of the
year and of the week. -/
theorem calendar_round_trip :
    (∀ t : Int, 0 ≤ t → t < yearStart 1000001 * 86400 → ∃ d, gmtime t = some d ∧ mktime d = t ∧ d.Valid ∧
      1970 ≤ d.year ∧ d.year ≤ 1000000 ∧ d.yday = d.dayOfYear ∧ d.wday = (4 + t / 86400) % 7) ∧
    ∀ d : Tm, d.Valid → 1970 ≤ d.year → d.year ≤ 1000000 → ∃ d', gmtime (mktime d) = some d' ∧
      d'.year = d.year ∧ d'.mon = d.mon ∧ d'.mday = d.mday ∧ d'.hour = d.hour ∧ d'.min = d.min ∧ d'.sec = d.sec := by
  refine ⟨fun t positive bound => ?_, fun d valid epoch bound => ?_⟩
  · obtain ⟨d, valid, epoch, years, rfl⟩ := exists_dated positive bound
    obtain ⟨year, month, dated⟩ := valid.dated epoch years
    -- the two fields that differ are not read by `mktime`
    have back : mktime { d with wday := (4 + d.seconds / 86400) % 7, yday := d.dayOfYear } = mktime d := rfl
    exact ⟨_, dated.gmtime_eq, back.trans dated.mktime_eq, ⟨valid.mon, valid.mday, valid.hour, valid.min, valid.sec⟩,
      epoch, years, rfl, rfl⟩
  · obtain ⟨year, month, dated⟩ := valid.dated epoch bound
    exact ⟨_, (congrArg gmtime dated.mktime_eq).trans dated.gmtime_eq, rfl, rfl, rfl, rfl, rfl, rfl⟩

-- 29 February 2000, a Tuesday
theorem calendar_round_trip_leap_day : ∃ d, gmtime 951782400 = some d ∧ mktime d = 951782400 ∧ d.wday = 2 := by
  have bound : (951782400 : Int) < yearStart 1000001 * 86400 := by
    have start := yearStart_eq (y := 1000001) (by decide)
    omega
  obtain ⟨d, found, back, -, -, -, -, weekday⟩ := calendar_round_trip.1 951782400 (by decide) bound
  exact ⟨d, found, back, by rw [weekday]; rfl⟩

/-! ## Every time has a date -/

theorem timeT_le {x : Int} (positive : 0 ≤ x) : timeT x ≤ x := by
  unfold timeT
  omega

theorem takeOff_ends {sec : Int → Int} (positive : ∀ n, 0 < sec n) {fuel : Nat} {clone n : Int} (enough : clone.toNat < fuel) :
    ∃ rest last, takeOff sec fuel clone n = some (rest, last) ∧ rest.toNat ≤ clone.toNat := by
  induction fuel generalizing clone n with
  | zero => cases enough
  | succ fuel ih =>
      have less := positive n
      unfold takeOff
      split_ifs with more
      · have less := timeT_le (x := clone - sec n) (by omega)
        have fewer : (timeT (clone - sec n)).toNat < fuel := by omega
        obtain ⟨rest, last, done, small⟩ := ih (n := int (n + 1)) fewer
        exact ⟨rest, last, done, by omega⟩
      · exact ⟨clone, n, rfl, le_rfl⟩

theorem yearSec_pos (year : Int) : 0 < yearSec year := by
  unfold yearSec
  split_ifs <;> decide

theorem monthSec_pos (leapYear : Bool) (month : Int) : 0 < monthSec leapYear month := by
  unfold monthSec daysInMonth
  split_ifs <;> cases leapYear <;> decide

theorem gmtime_ends (timer : Int) : ∃ d, gmtime timer = some d := by
  obtain ⟨rest, year, years, less⟩ := takeOff_ends yearSec_pos (n := 1970) (Nat.lt_succ_self timer.toNat)
  obtain ⟨rest', month, months, -⟩ := takeOff_ends (monthSec_pos (isLeapYear year)) (n := 1)
    (Nat.lt_succ_of_le less)
  simp only [gmtime, years, Option.bind_eq_bind, Option.bind_some, months]
  exact ⟨_, rfl⟩

end Kerosene.Libc
