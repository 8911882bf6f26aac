import Kerosene.Fat32.DirectoryEntry

/-!
# Times in directory entries

A date and a time of two seconds' precision, packed into 16 bits each, for the years 1980 to 2107.
-/

namespace Kerosene.Fat32
open Libc

/-! ## Packed fields -/

theorem ofInt_natCast (n : Nat) : UInt16.ofInt n = UInt16.ofNat n := by
  apply UInt16.toNat_inj.mp
  rw [UInt16.ofInt, UInt16.toNat_ofNat', UInt16.toNat_ofNat']
  omega

theorem packed_toNat {x y z k : Nat} (first : x < 2 ^ 5) (second : x + y * 2 ^ 5 < 2 ^ k)
    (third : x + y * 2 ^ 5 + z * 2 ^ k < 2 ^ 16) :
    (UInt16.ofInt x ||| UInt16.ofInt (y * 2 ^ 5) ||| UInt16.ofInt (z * 2 ^ k)).toNat = x + y * 2 ^ 5 + z * 2 ^ k := by
  have low : x ||| y * 2 ^ 5 = x + y * 2 ^ 5 := by
    rw [Nat.or_comm, Nat.mul_comm, ← Nat.two_pow_add_eq_or_of_lt first, Nat.add_comm]
  have high : (x + y * 2 ^ 5) ||| z * 2 ^ k = x + y * 2 ^ 5 + z * 2 ^ k := by
    rw [Nat.or_comm, Nat.mul_comm z, ← Nat.two_pow_add_eq_or_of_lt second, Nat.add_comm]
  have shifted₁ : ((y : Int) * 2 ^ 5) = ((y * 2 ^ 5 : Nat) : Int) := by push_cast; rfl
  have shifted₂ : ((z : Int) * 2 ^ k) = ((z * 2 ^ k : Nat) : Int) := by push_cast; rfl
  rw [shifted₁, shifted₂, ofInt_natCast, ofInt_natCast, ofInt_natCast, UInt16.toNat_or, UInt16.toNat_or, UInt16.toNat_ofNat',
    UInt16.toNat_ofNat', UInt16.toNat_ofNat', Nat.mod_eq_of_lt (by omega), Nat.mod_eq_of_lt (by omega),
    Nat.mod_eq_of_lt (by omega), low, high]

theorem field_toNat {v mask : UInt16} {s w : Nat} (inside : s < 16) (ones : mask.toNat = 2 ^ w - 1) :
    ((v >>> UInt16.ofNat s) &&& mask).toNat = v.toNat / 2 ^ s % 2 ^ w := by
  have shift : (UInt16.ofNat s).toNat = s := UInt16.toNat_ofNat_of_lt' (by rw [UInt16.size]; omega)
  rw [UInt16.toNat_and, UInt16.toNat_shiftRight, ones, shift, Nat.and_two_pow_sub_one_eq_mod, Nat.mod_eq_of_lt inside,
    Nat.shiftRight_eq_div_pow]

theorem shiftRight_toNat {v : UInt16} {s : Nat} (inside : s < 16) : (v >>> UInt16.ofNat s).toNat = v.toNat / 2 ^ s := by
  have shift : (UInt16.ofNat s).toNat = s := UInt16.toNat_ofNat_of_lt' (by rw [UInt16.size]; omega)
  rw [UInt16.toNat_shiftRight, shift, Nat.mod_eq_of_lt inside, Nat.shiftRight_eq_div_pow]

-- the three fields again
theorem packed_fields {x y z w : Nat} (first : x < 2 ^ 5) (second : y < 2 ^ w) :
    (x + y * 2 ^ 5 + z * 2 ^ (5 + w)) % 2 ^ 5 = x ∧ (x + y * 2 ^ 5 + z * 2 ^ (5 + w)) / 2 ^ 5 % 2 ^ w = y ∧
      (x + y * 2 ^ 5 + z * 2 ^ (5 + w)) / 2 ^ (5 + w) = z := by
  have nested : x + y * 2 ^ 5 + z * 2 ^ (5 + w) = x + (y + z * 2 ^ w) * 2 ^ 5 := by
    rw [Nat.pow_add]
    ring
  have behind : (x + (y + z * 2 ^ w) * 2 ^ 5) / 2 ^ 5 = y + z * 2 ^ w := by
    rw [Nat.add_mul_div_right _ _ (Nat.two_pow_pos 5), Nat.div_eq_of_lt first, Nat.zero_add]
  rw [nested]
  refine ⟨?_, ?_, ?_⟩
  · rw [Nat.add_mul_mod_self_right, Nat.mod_eq_of_lt first]
  · rw [behind, Nat.add_mul_mod_self_right, Nat.mod_eq_of_lt second]
  · rw [Nat.pow_add, ← Nat.div_div_eq_div_mul, behind, Nat.add_mul_div_right _ _ (Nat.two_pow_pos w),
      Nat.div_eq_of_lt second, Nat.zero_add]

/-! ## Years -/

theorem yearStart_succ {year : Nat} (epoch : 1970 ≤ year) : yearStart (year + 1) = yearStart year + yearLength year := by
  rw [yearStart, show year + 1 - 1970 = year - 1970 + 1 by omega, Finset.sum_range_succ, ← yearStart,
    show 1970 + (year - 1970) = year by omega]

theorem yearStart_mono {y z : Nat} (le : y ≤ z) : yearStart y ≤ yearStart z :=
  Finset.sum_le_sum_of_subset (Finset.range_subset_range.mpr (by omega))

section
variable {d e : Tm} {year month year' month' : Nat}

theorem timeOfDay_bounds (dated : Dated d year month) :
    0 ≤ d.hour * 3600 + d.min * 60 + d.sec ∧ d.hour * 3600 + d.min * 60 + d.sec < 86400 := by
  have hours := dated.hours
  have minutes := dated.minutes
  have seconds := dated.seconds
  omega

theorem day_le (dated : Dated d year month) (dated' : Dated e year' month') (le : d.seconds ≤ e.seconds) :
    yearStart year + d.dayOfYear ≤ yearStart year' + e.dayOfYear ∧
      (yearStart year + d.dayOfYear = yearStart year' + e.dayOfYear →
        d.hour * 3600 + d.min * 60 + d.sec ≤ e.hour * 3600 + e.min * 60 + e.sec) := by
  have time := timeOfDay_bounds dated
  have time' := timeOfDay_bounds dated'
  rw [dated.total, dated'.total] at le
  constructor
  · by_contra later
    omega
  · intro same
    omega

theorem year_le (dated : Dated d year month) (dated' : Dated e year' month') (le : d.seconds ≤ e.seconds) : year ≤ year' := by
  by_contra later
  have day := (day_le dated dated' le).1
  have bounds := dated.bounds
  have bounds' := dated'.bounds
  have next := yearStart_succ dated'.years.1
  have starts := yearStart_mono (show year' + 1 ≤ year by omega)
  omega

theorem month_le (dated : Dated d year month) (dated' : Dated e year month') (le : d.seconds ≤ e.seconds) : month ≤ month' := by
  by_contra later
  have day := (day_le dated dated' le).1
  have starts := monthStart_mono (show month' + 1 ≤ month by omega) year
  have next := monthStart_succ year month'
  have dayOfYear := dated.dayOfYear
  have dayOfYear' := dated'.dayOfYear
  have days := dated.days
  have days' := dated'.days
  omega

end

theorem even_seconds (day hour min sec : Int) : day * 86400 + hour * 3600 + min * 60 + (sec - sec % 2) =
    day * 86400 + hour * 3600 + min * 60 + sec - (day * 86400 + hour * 3600 + min * 60 + sec) % 2 := by
  omega

/-! ## What is packed -/

/-- The years that fit the seven bits of a date. -/
structure Storable (d : Tm) (year month : Nat) : Prop where
  dated : Dated d year month
  years : 1980 ≤ year ∧ year < 2108

namespace Storable
variable {d e : Tm} {year month year' month' : Nat} (storable : Storable d year month)
include storable

theorem day_lt : d.mday.toNat < 2 ^ 5 := by
  have days := storable.dated.days
  have inside := monthLength_le year storable.dated.months
  omega

theorem mon_lt : month + 1 < 2 ^ 4 := by
  have months := storable.dated.months
  omega

theorem date : (parseTimestamp d).1.toNat = d.mday.toNat + (month + 1) * 2 ^ 5 + (year - 1980) * 2 ^ 9 := by
  have inside := monthLength_le year storable.dated.months
  have days := storable.dated.days
  have months := storable.dated.months
  obtain ⟨mday, isDay⟩ : ∃ n : Nat, d.mday = n := ⟨d.mday.toNat, by omega⟩
  have years := storable.years
  have isYear : (if d.year ≥ 1980 then d.year - 1980 else 0) = ((year - 1980 : Nat) : Int) := by
    rw [storable.dated.isYear, if_pos (by omega)]
    omega
  have isMonth : d.mon = ((month + 1 : Nat) : Int) := storable.dated.isMonth
  rw [parseTimestamp, isYear, isMonth, isDay, Int.toNat_natCast]
  exact packed_toNat (by omega) (by omega) (by omega)

theorem time : (parseTimestamp d).2.toNat = d.sec.toNat / 2 + d.min.toNat * 2 ^ 5 + d.hour.toNat * 2 ^ 11 := by
  have seconds := storable.dated.seconds
  have minutes := storable.dated.minutes
  have hours := storable.dated.hours
  obtain ⟨sec, isSec⟩ : ∃ n : Nat, d.sec = n := ⟨d.sec.toNat, by omega⟩
  obtain ⟨min, isMin⟩ : ∃ n : Nat, d.min = n := ⟨d.min.toNat, by omega⟩
  obtain ⟨hour, isHour⟩ : ∃ n : Nat, d.hour = n := ⟨d.hour.toNat, by omega⟩
  have half : ((sec : Int)).tdiv 2 = ((sec / 2 : Nat) : Int) := by
    rw [Int.tdiv_eq_ediv_of_nonneg (by omega)]
    omega
  rw [parseTimestamp, isSec, isMin, isHour, half, Int.toNat_natCast, Int.toNat_natCast, Int.toNat_natCast]
  exact packed_toNat (by omega) (by omega) (by omega)

theorem parseDatetime_eq : parseDatetime (parseTimestamp d).1 (parseTimestamp d).2 = d.seconds - d.seconds % 2 := by
  have dated := storable.dated
  have years := storable.years
  have days := dated.days
  have months := dated.months
  have seconds := dated.seconds
  have minutes := dated.minutes
  have hours := dated.hours
  have half : ((d.sec.toNat / 2 : Nat) : Int) * 2 = d.sec - d.sec % 2 := by omega
  have dateFields := packed_fields (w := 4) (z := year - 1980) storable.day_lt storable.mon_lt
  have timeFields := packed_fields (w := 6) (z := d.hour.toNat) (show d.sec.toNat / 2 < 2 ^ 5 by omega)
    (show d.min.toNat < 2 ^ 6 by omega)
  have total := dated.total
  have isYear := dated.isYear
  have isMonth := dated.isMonth
  have date := storable.date
  have time := storable.time
  obtain ⟨day, packedDate⟩ : ∃ v, (parseTimestamp d).1 = v := ⟨_, rfl⟩
  obtain ⟨clock, packedTime⟩ : ∃ v, (parseTimestamp d).2 = v := ⟨_, rfl⟩
  rw [packedDate] at date ⊢
  rw [packedTime] at time ⊢
  rw [← date] at dateFields
  rw [← time] at timeFields
  have mday : ((day &&& 0b11111).toNat : Int) = d.mday := by
    have field : (day &&& 0b11111).toNat = day.toNat / 2 ^ 0 % 2 ^ 5 := field_toNat (s := 0) (w := 5) (by decide) rfl
    rw [field, Nat.pow_zero, Nat.div_one, dateFields.1, Int.toNat_of_nonneg (Int.le_of_lt days.1)]
  have mon : (((day >>> 5) &&& 0b1111).toNat : Int) = d.mon := by
    have field : ((day >>> 5) &&& 0b1111).toNat = day.toNat / 2 ^ 5 % 2 ^ 4 := field_toNat (s := 5) (w := 4) (by decide) rfl
    rw [field, dateFields.2.1, isMonth]
    rfl
  have since : ((day >>> 9).toNat : Int) + 1980 = d.year := by
    have field : (day >>> 9).toNat = day.toNat / 2 ^ 9 := shiftRight_toNat (s := 9) (by decide)
    rw [field, dateFields.2.2, isYear, Nat.cast_sub years.1]
    exact sub_add_cancel ..
  have sec : ((clock &&& 0b11111).toNat : Int) * 2 = d.sec - d.sec % 2 := by
    have field : (clock &&& 0b11111).toNat = clock.toNat / 2 ^ 0 % 2 ^ 5 := field_toNat (s := 0) (w := 5) (by decide) rfl
    rw [field, Nat.pow_zero, Nat.div_one, timeFields.1, half]
  have min : (((clock >>> 5) &&& 0b111111).toNat : Int) = d.min := by
    have field : ((clock >>> 5) &&& 0b111111).toNat = clock.toNat / 2 ^ 5 % 2 ^ 6 := field_toNat (s := 5) (w := 6) (by decide) rfl
    rw [field, timeFields.2.1, Int.toNat_of_nonneg minutes.1]
  have hour : ((clock >>> 11).toNat : Int) = d.hour := by
    have field : (clock >>> 11).toNat = clock.toNat / 2 ^ 11 := shiftRight_toNat (s := 11) (by decide)
    rw [field, timeFields.2.2, Int.toNat_of_nonneg hours.1]
  rw [parseDatetime, mday, mon, since, sec, min, hour]
  have even : Dated ⟨d.sec - d.sec % 2, d.min, d.hour, d.mday, d.mon, d.year, 0, 0⟩ year month := by
    refine ⟨isYear, isMonth, dated.years, months, days, hours, minutes, ⟨?_, ?_⟩, dated.dayOfYear, ?_⟩
    · dsimp only
      omega
    · dsimp only
      omega
    · rw [Tm.seconds, isYear, Int.toNat_natCast]
  rw [even.mktime_eq, even.total, total]
  have sameDay : Tm.dayOfYear ⟨d.sec - d.sec % 2, d.min, d.hour, d.mday, d.mon, d.year, 0, 0⟩ = d.dayOfYear := rfl
  rw [sameDay]
  exact even_seconds _ _ _ _

omit storable in
theorem date_lt {day mon y day' mon' y' : Nat} (days : day < 2 ^ 5) (months : mon < 2 ^ 4)
    (earlier : y < y' ∨ y = y' ∧ (mon < mon' ∨ mon = mon' ∧ day < day')) :
    day + mon * 2 ^ 5 + y * 2 ^ 9 < day' + mon' * 2 ^ 5 + y' * 2 ^ 9 := by
  omega

omit storable in
theorem time_le {sec min hour sec' min' hour' : Nat} (seconds : sec < 60) (minutes : min < 60) (seconds' : sec' < 60)
    (minutes' : min' < 60) (le : hour * 3600 + min * 60 + sec ≤ hour' * 3600 + min' * 60 + sec') :
    sec / 2 + min * 2 ^ 5 + hour * 2 ^ 11 ≤ sec' / 2 + min' * 2 ^ 5 + hour' * 2 ^ 11 := by
  rcases Nat.lt_trichotomy hour hour' with earlier | rfl | later
  · omega
  · rcases Nat.lt_trichotomy min min' with earlier | rfl | later <;> omega
  · omega

theorem code_le (storable' : Storable e year' month') (le : d.seconds ≤ e.seconds) :
    (parseTimestamp d).1.toNat < (parseTimestamp e).1.toNat ∨
      (parseTimestamp d).1 = (parseTimestamp e).1 ∧ (parseTimestamp d).2.toNat ≤ (parseTimestamp e).2.toNat := by
  have dated := storable.dated
  have dated' := storable'.dated
  have years := storable.years
  rw [← UInt16.toNat_inj, storable.date, storable'.date]
  rcases (year_le dated dated' le).lt_or_eq with earlier | rfl
  · exact .inl (date_lt storable.day_lt storable.mon_lt (.inl (by omega)))
  rcases (month_le dated dated' le).lt_or_eq with earlier | rfl
  · exact .inl (date_lt storable.day_lt storable.mon_lt (.inr ⟨rfl, .inl (by omega)⟩))
  obtain ⟨sameOrEarlier, time⟩ := day_le dated dated' le
  rw [dated.dayOfYear, dated'.dayOfYear] at sameOrEarlier time
  have positive := dated.days.1
  rcases (show d.mday ≤ e.mday by omega).lt_or_eq with earlier | same
  · exact .inl (date_lt storable.day_lt storable.mon_lt (.inr ⟨rfl, .inr ⟨rfl, by omega⟩⟩))
  · refine .inr ⟨by rw [same], ?_⟩
    have clock := time (by rw [same])
    have hours := dated.hours
    have minutes := dated.minutes
    have seconds := dated.seconds
    have hours' := dated'.hours
    have minutes' := dated'.minutes
    have seconds' := dated'.seconds
    rw [storable.time, storable'.time]
    exact time_le (by omega) (by omega) (by omega) (by omega) (by omega)

end Storable

/-! ## Every time of these years -/

-- 1980-01-01 00:00:00 and 2108-01-01 00:00:00
def firstTimestamp : Int := 315532800
def endTimestamp : Int := 4354819200

theorem exists_storable {t : Int} (low : firstTimestamp ≤ t) (high : t < endTimestamp) :
    ∃ d tm year month, Storable d year month ∧ d.seconds = t ∧ gmtime t = some tm ∧ parseTimestamp tm = parseTimestamp d := by
  rw [firstTimestamp] at low
  rw [endTimestamp] at high
  have last := yearStart_eq (y := 1000001) (by decide)
  have first : yearStart 1980 = 3652 := by
    have := yearStart_eq (y := 1980) (by decide)
    omega
  have past : yearStart 2108 = 50403 := by
    have := yearStart_eq (y := 2108) (by decide)
    omega
  obtain ⟨d, valid, epoch, bound, rfl⟩ := exists_dated (t := t) (by omega) (by omega)
  obtain ⟨year, month, dated⟩ := valid.dated epoch bound
  have bounds := dated.bounds
  have next := yearStart_succ dated.years.1
  have total := dated.total
  have hours := dated.hours
  have minutes := dated.minutes
  have seconds := dated.seconds
  refine ⟨d, _, year, month, ⟨dated, ?_, ?_⟩, rfl, dated.gmtime_eq, rfl⟩
  · by_contra early
    have := yearStart_mono (show year + 1 ≤ 1980 by omega)
    omega
  · by_contra late
    have := yearStart_mono (show 2108 ≤ year by omega)
    omega

/-- Date and time keep a timestamp to two seconds, and order timestamps. -/
theorem timestamp_round_trip :
    (∀ t : Int, firstTimestamp ≤ t → t < endTimestamp → ∃ tm, gmtime t = some tm ∧
      parseDatetime (parseTimestamp tm).1 (parseTimestamp tm).2 = t - t % 2) ∧
    ∀ t u : Int, firstTimestamp ≤ t → t ≤ u → u < endTimestamp → ∃ tm tm', gmtime t = some tm ∧ gmtime u = some tm' ∧
      ((parseTimestamp tm).1.toNat < (parseTimestamp tm').1.toNat ∨
        (parseTimestamp tm).1 = (parseTimestamp tm').1 ∧ (parseTimestamp tm).2.toNat ≤ (parseTimestamp tm').2.toNat) := by
  refine ⟨fun t low high => ?_, fun t u low le high => ?_⟩
  · obtain ⟨d, tm, year, month, storable, rfl, found, same⟩ := exists_storable low high
    exact ⟨tm, found, by rw [same, storable.parseDatetime_eq]⟩
  · obtain ⟨d, tm, year, month, storable, rfl, found, same⟩ := exists_storable low (le.trans_lt high)
    obtain ⟨e, tm', year', month', storable', rfl, found', same'⟩ := exists_storable (low.trans le) high
    exact ⟨tm, tm', found, found', by rw [same, same']; exact storable.code_le storable' le⟩

-- the last second of 29 February 2000
theorem timestamp_round_trip_leap_day : ∃ tm, gmtime 951868799 = some tm ∧
    parseDatetime (parseTimestamp tm).1 (parseTimestamp tm).2 = 951868798 :=
  timestamp_round_trip.1 951868799 (by decide) (by decide)

end Kerosene.Fat32
