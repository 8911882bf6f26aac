import Kerosene.Libc.Calendar

/-!
# The clock

`rtc_get_current_time`, which reads the clock chip twice until it reads the same, and the seconds counted by the timer
interrupt.
-/

namespace Kerosene.Driver
open Libc (Tm mktime)

/-! ## Reading the chip -/

structure Registers where
  second : Nat
  minute : Nat
  hour : Nat
  day : Nat
  month : Nat
  year : Nat
  deriving DecidableEq

/-- The clock chip, as each access of its ports in turn finds it. -/
structure Cmos where
  registers : Nat → Registers
  updating : Nat → Bool
  regB : Nat

namespace Cmos

-- `while(is_update_in_progress());`
def waitUpdate (cmos : Cmos) : (fuel t : Nat) → Option Nat
  | 0, _ => none
  | fuel + 1, t => if cmos.updating t then waitUpdate cmos fuel (t + 1) else some (t + 1)

def readRegs (cmos : Cmos) (t : Nat) : Registers :=
  ⟨(cmos.registers t).second, (cmos.registers (t + 1)).minute, (cmos.registers (t + 2)).hour, (cmos.registers (t + 3)).day,
    (cmos.registers (t + 4)).month, (cmos.registers (t + 5)).year⟩

-- the loop that reads until it has read the same twice
def readAgain (cmos : Cmos) (patience : Nat) : (fuel : Nat) → (last : Registers) → (t : Nat) → Option (Registers × Nat)
  | 0, _, _ => none
  | fuel + 1, last, t => do
      let t ← cmos.waitUpdate patience t
      let curr := cmos.readRegs t
      if last ≠ curr then readAgain cmos patience fuel curr (t + 6) else some (curr, t + 6)

def fromBcd (n : Nat) : Nat := (n &&& 0xf) + n / 16 * 10

-- the highest bit says that it is after noon
def fromBcdHour (n : Nat) : Nat := ((n &&& 0xf) + (n &&& 0x70) / 16 * 10) ||| (n &&& 0x80)

def to24h (regB n : Nat) : Nat := if regB &&& 0x2 = 0 ∧ n &&& 0x80 ≠ 0 then ((n &&& 0x7f) + 12) % 24 else n

-- the parts of `tm` that are not read
def convert (regB : Nat) (time : Registers) (wday yday : Int) : Tm :=
  let time : Registers := if regB &&& 0x4 = 0 then
      ⟨fromBcd time.second, fromBcd time.minute, fromBcdHour time.hour, fromBcd time.day, fromBcd time.month, fromBcd time.year⟩
    else time
  ⟨time.second, time.minute, to24h regB time.hour, time.day, time.month, time.year + 2000, wday, yday⟩

def rtcGetCurrentTime (cmos : Cmos) (patience fuel t : Nat) (wday yday : Int) : Option (Tm × Nat) := do
  let t ← cmos.waitUpdate patience t
  let (time, t) ← cmos.readAgain patience fuel (cmos.readRegs t) (t + 6)
  return (convert cmos.regB time wday yday, t)

/-! ## What the chip holds -/

def inDigits (regB n : Nat) : Nat := if regB &&& 0x4 = 0 then n / 10 * 16 + n % 10 else n

-- on a clock of twelve hours midnight and noon are twelve
def hourRegister (regB hour : Nat) : Nat :=
  if regB &&& 0x2 = 0 then inDigits regB ((hour + 11) % 12 + 1) ||| (if hour ≥ 12 then 0x80 else 0) else inDigits regB hour

def encode (regB : Nat) (d : Tm) : Registers :=
  ⟨inDigits regB d.sec.toNat, inDigits regB d.min.toNat, hourRegister regB d.hour.toNat, inDigits regB d.mday.toNat,
    inDigits regB d.mon.toNat, inDigits regB (d.year - 2000).toNat⟩

/-- How far the hours go wrong: on a clock of twelve hours midnight is taken for noon, and noon for midnight. -/
def skew (regB : Nat) (hour : Int) : Int :=
  if regB &&& 0x2 = 0 then if hour = 0 then 12 else if hour = 12 then -12 else 0 else 0

theorem fromBcd_inDigits {n : Nat} (small : n < 100) (regB : Nat) :
    (if regB &&& 0x4 = 0 then fromBcd (inDigits regB n) else inDigits regB n) = n := by
  have digits : ∀ n < 100, fromBcd (n / 10 * 16 + n % 10) = n := by decide
  rw [inDigits]
  split_ifs
  · exact digits n small
  · rfl

theorem to24h_hourRegister {hour : Nat} (small : hour < 24) (regB : Nat) :
    (to24h regB (if regB &&& 0x4 = 0 then fromBcdHour (hourRegister regB hour) else hourRegister regB hour) : Int) =
      hour + skew regB hour := by
  by_cases bcd : regB &&& 0x4 = 0 <;> by_cases half : regB &&& 0x2 = 0
  all_goals
    simp only [to24h, hourRegister, inDigits, skew, bcd, half, if_true, if_false, true_and, false_and]
    revert hour
    decide

theorem convert_encode {d : Tm} (valid : d.Valid) (century : 2000 ≤ d.year ∧ d.year < 2100) (regB : Nat) (wday yday : Int) :
    convert regB (encode regB d) wday yday =
      ⟨d.sec, d.min, d.hour + skew regB d.hour, d.mday, d.mon, d.year, wday, yday⟩ := by
  obtain ⟨mon, mday, hour, min, sec⟩ := valid
  have length := Libc.monthLength_le d.year.toNat (m := (d.mon - 1).toNat) (by omega)
  have read {n : Int} (low : 0 ≤ n) (high : n < 100) :
      ((if regB &&& 0x4 = 0 then fromBcd (inDigits regB n.toNat) else inDigits regB n.toNat : Nat) : Int) = n := by
    rw [fromBcd_inDigits (by omega), Int.toNat_of_nonneg low]
  have hours := to24h_hourRegister (show d.hour.toNat < 24 by omega) regB
  rw [Int.toNat_of_nonneg hour.1] at hours
  have whole := read (n := d.year - 2000) (by omega) (by omega)
  have second := read sec.1 (by omega)
  have minute := read min.1 (by omega)
  have day := read (n := d.mday) (by omega) (by omega)
  have month := read (n := d.mon) (by omega) (by omega)
  rw [convert, encode]
  split_ifs at hours whole second minute day month ⊢ with bcd
  all_goals
    dsimp only
    rw [hours, whole, second, minute, day, month, sub_add_cancel]

theorem mktime_convert {d : Tm} (valid : d.Valid) (century : 2000 ≤ d.year ∧ d.year < 2100) (regB : Nat) (wday yday : Int) :
    mktime (convert regB (encode regB d) wday yday) = d.seconds + 3600 * skew regB d.hour := by
  rw [convert_encode valid century]
  have hours : 0 ≤ d.hour + skew regB d.hour ∧ d.hour + skew regB d.hour < 24 := by
    have := valid.hour
    rw [skew]
    split_ifs <;> omega
  have valid' : (⟨d.sec, d.min, d.hour + skew regB d.hour, d.mday, d.mon, d.year, wday, yday⟩ : Tm).Valid :=
    ⟨valid.mon, valid.mday, hours, valid.min, valid.sec⟩
  obtain ⟨year, month, dated⟩ := valid'.dated (by dsimp only; omega) (by dsimp only; omega)
  rw [dated.mktime_eq, Tm.seconds, Tm.seconds, Tm.dayOfYear, Tm.dayOfYear]
  ring

/-! ## Reading it while it runs -/

section
variable {α : Type} {value : Nat → α} {a b n : Nat}

def ChangesAt (value : Nat → α) (t : Nat) : Prop := value t ≠ value (t + 1)

theorem still (none : ∀ t, a ≤ t → t < b → ¬ ChangesAt value t) {t : Nat} (low : a ≤ t) (high : t ≤ b) :
    value t = value a := by
  induction t, low using Nat.le_induction with
  | base => rfl
  | succ t low ih =>
      have same : value t = value (t + 1) := not_not.mp (none t low high)
      rw [← same]
      exact ih (Nat.le_of_succ_le high)

theorem once (rare : ∀ t u, ChangesAt value t → ChangesAt value u → t < u → t + n ≤ u) (a : Nat) :
    ∃ e, (∀ t, a ≤ t → t < e → value t = value a) ∧ ∀ t, e ≤ t → t ≤ a + n → value t = value (a + n) := by
  by_cases changes : ∃ t, (a ≤ t ∧ t < a + n) ∧ ChangesAt value t
  · obtain ⟨c, ⟨low, high⟩, change⟩ := changes
    refine ⟨c + 1, fun t left right => ?_, fun t left right => ?_⟩
    · refine still (b := c) (fun u start stop other => ?_) left (Nat.le_of_lt_succ right)
      have := rare u c other change stop
      omega
    · have none : ∀ u, c + 1 ≤ u → u < a + n → ¬ ChangesAt value u := by
        intro u start stop other
        have := rare c u change other start
        omega
      rw [still none left right, still none high le_rfl]
  · refine ⟨a + n + 1, fun t left right => ?_, fun t left right => absurd right (by omega)⟩
    exact still (b := a + n) (fun u start stop other => changes ⟨u, ⟨start, stop⟩, other⟩) left (Nat.le_of_lt_succ right)

end

variable {cmos : Cmos} {clock : Nat → Tm} {w patience fuel t a b : Nat}

/-- The chip shows valid dates of this century; an update takes at most `w` accesses, and they are rare. -/
structure Ticking (cmos : Cmos) (clock : Nat → Tm) (w : Nat) : Prop where
  holds : ∀ t, cmos.registers t = encode cmos.regB (clock t)
  valid : ∀ t, (clock t).Valid
  century : ∀ t, 2000 ≤ (clock t).year ∧ (clock t).year < 2100
  waits : ∀ t, ∃ u, t ≤ u ∧ u ≤ t + w ∧ cmos.updating u = false
  rare : ∀ t u, ChangesAt cmos.registers t → ChangesAt cmos.registers u → t < u → t + 4 * (w + 7) ≤ u

theorem waitUpdate_ends {u : Nat} (low : t ≤ u) (high : u ≤ t + w) (idle : cmos.updating u = false) (patient : w < patience) :
    ∃ a, cmos.waitUpdate patience t = some a ∧ t < a ∧ a ≤ t + w + 1 := by
  induction patience generalizing t w with
  | zero => cases patient
  | succ patience ih =>
      rw [waitUpdate]
      by_cases busy : cmos.updating t = true
      · have other : t ≠ u := by
          rintro rfl
          rw [idle] at busy
          cases busy
        rw [if_pos busy]
        obtain ⟨a, ended, after, before⟩ := ih (t := t + 1) (w := w - 1) (by omega) (by omega) (by omega)
        exact ⟨a, ended, by omega, by omega⟩
      · rw [if_neg busy]
        exact ⟨t + 1, rfl, Nat.lt_succ_self t, by omega⟩

theorem readRegs_still (same : ∀ u, a ≤ u → u ≤ a + 5 → cmos.registers u = cmos.registers a) :
    cmos.readRegs a = cmos.registers a := by
  rw [readRegs, same (a + 1) (by omega) (by omega), same (a + 2) (by omega) (by omega), same (a + 3) (by omega) (by omega),
    same (a + 4) (by omega) (by omega), same (a + 5) (by omega) (by omega)]

section
variable {e n : Nat}

theorem readRegs_new (new : ∀ t, e ≤ t → t ≤ a + n → cmos.registers t = cmos.registers (a + n)) (left : e ≤ b)
    (right : b + 6 ≤ a + n) : cmos.readRegs b = cmos.registers b := by
  refine readRegs_still fun u low high => ?_
  rw [new u (by omega) (by omega), new b left (by omega)]

theorem readRegs_old (old : ∀ t, a ≤ t → t < e → cmos.registers t = cmos.registers a) (left : a ≤ b) (right : b + 5 < e) :
    cmos.readRegs b = cmos.registers b := by
  refine readRegs_still fun u low high => ?_
  rw [old u (by omega) (by omega), old b left (by omega)]

theorem twice {c : Nat} (old : ∀ t, a ≤ t → t < e → cmos.registers t = cmos.registers a)
    (new : ∀ t, e ≤ t → t ≤ a + n → cmos.registers t = cmos.registers (a + n)) (left : a ≤ b) (after : b + 6 ≤ c)
    (right : c + 6 ≤ a + n) (same : cmos.readRegs b = cmos.readRegs c) :
    ∃ u, (b ≤ u ∧ u ≤ c) ∧ cmos.readRegs c = cmos.registers u := by
  by_cases before : b + 5 < e
  · exact ⟨b, ⟨le_rfl, by omega⟩, same ▸ readRegs_old old left before⟩
  · exact ⟨c, ⟨by omega, le_rfl⟩, readRegs_new new (by omega) right⟩

end

theorem readAgain_snapshot (ticking : cmos.Ticking clock w) (patient : w < patience) (rounds : 3 ≤ fuel) (a : Nat) :
    ∃ curr t u, cmos.readAgain patience fuel (cmos.readRegs a) (a + 6) = some (curr, t) ∧ (a ≤ u ∧ u ≤ a + 4 * (w + 7)) ∧
      curr = cmos.registers u := by
  obtain ⟨e, old, new⟩ := once ticking.rare a
  obtain ⟨fuel, rfl⟩ := Nat.exists_eq_add_of_le' rounds
  have wait (t : Nat) : ∃ a, cmos.waitUpdate patience t = some a ∧ t < a ∧ a ≤ t + w + 1 := by
    obtain ⟨u, low, high, idle⟩ := ticking.waits t
    exact waitUpdate_ends low high idle patient
  obtain ⟨b, waited, afterB, beforeB⟩ := wait (a + 6)
  obtain ⟨c, waited', afterC, beforeC⟩ := wait (b + 6)
  obtain ⟨d, waited'', afterD, beforeD⟩ := wait (c + 6)
  rw [readAgain, waited, Option.bind_eq_bind, Option.bind_some]
  dsimp only
  by_cases first : cmos.readRegs a = cmos.readRegs b
  · rw [if_neg (not_not.mpr first)]
    obtain ⟨u, ⟨low, high⟩, held⟩ := twice old new le_rfl (by omega) (by omega) first
    exact ⟨_, _, u, rfl, ⟨low, by omega⟩, held⟩
  rw [if_pos first, readAgain, waited', Option.bind_eq_bind, Option.bind_some]
  dsimp only
  by_cases second : cmos.readRegs b = cmos.readRegs c
  · rw [if_neg (not_not.mpr second)]
    obtain ⟨u, ⟨low, high⟩, held⟩ := twice old new (by omega) (by omega) (by omega) second
    exact ⟨_, _, u, rfl, ⟨by omega, by omega⟩, held⟩
  rw [if_pos second, readAgain, waited'', Option.bind_eq_bind, Option.bind_some]
  dsimp only
  -- the change was in the first two rounds
  have changed : e ≤ c := by
    by_contra later
    rw [readRegs_old old le_rfl (by omega), readRegs_old old (by omega) (by omega), old b (by omega) (by omega)] at first
    exact first rfl
  have third : cmos.readRegs c = cmos.readRegs d := by
    rw [readRegs_new new changed (by omega), readRegs_new new (by omega) (by omega), new c changed (by omega),
      new d (by omega) (by omega)]
  rw [if_neg (not_not.mpr third)]
  exact ⟨_, _, d, rfl, ⟨by omega, by omega⟩, readRegs_new new (by omega) (by omega)⟩

theorem rtcGetCurrentTime_snapshot (ticking : cmos.Ticking clock w) (patient : w < patience) (rounds : 3 ≤ fuel) (t : Nat)
    (wday yday : Int) : ∃ stop u, (t ≤ u ∧ u ≤ t + 5 * (w + 7)) ∧ cmos.rtcGetCurrentTime patience fuel t wday yday =
      some (convert cmos.regB (encode cmos.regB (clock u)) wday yday, stop) := by
  obtain ⟨i, low, high, idle⟩ := ticking.waits t
  obtain ⟨a, waited, after, before⟩ := waitUpdate_ends low high idle patient
  obtain ⟨curr, stop, u, read, ⟨left, right⟩, held⟩ := readAgain_snapshot ticking patient rounds a
  refine ⟨stop, u, ⟨by omega, by omega⟩, ?_⟩
  rw [rtcGetCurrentTime, waited, Option.bind_eq_bind, Option.bind_some, read, held, ticking.holds u]
  rfl

end Cmos

/-! ## The timer interrupt -/

def timerFrequency : BitVec 64 := 1000

structure Timer where
  ticks : BitVec 64
  startTimestamp : BitVec 64
  secondsSinceStart : BitVec 64

namespace Timer

-- the scheduler's turn follows
def tickHandler (timer : Timer) : Timer :=
  let timer := { timer with ticks := timer.ticks + 1 }
  if timer.ticks = timerFrequency then { timer with secondsSinceStart := timer.secondsSinceStart + 1, ticks := 0 } else timer

def getCurrentTime (timer : Timer) : BitVec 64 := timer.startTimestamp + timer.secondsSinceStart

def timerInit (cmos : Cmos) (patience fuel t : Nat) (wday yday : Int) : Option Timer := do
  let (time, _) ← cmos.rtcGetCurrentTime patience fuel t wday yday
  return ⟨0, BitVec.ofInt 64 (mktime time), 0⟩

theorem ticked (start : BitVec 64) (n : Nat) : tickHandler^[n] ⟨0, start, 0⟩ =
    ⟨BitVec.ofNat 64 (n % 1000), start, BitVec.ofNat 64 (n / 1000)⟩ := by
  induction n with
  | zero => rfl
  | succ n ih =>
      rw [Function.iterate_succ_apply', ih, tickHandler]
      have next : BitVec.ofNat 64 (n % 1000) + 1 = BitVec.ofNat 64 (n % 1000 + 1) := (BitVec.ofNat_add ..).symm
      dsimp only
      rw [next]
      by_cases full : n % 1000 + 1 = 1000
      · have whole : (n + 1) % 1000 = 0 ∧ (n + 1) / 1000 = n / 1000 + 1 := by omega
        rw [full, whole.1, whole.2, BitVec.ofNat_add]
        rfl
      · have part : (n + 1) % 1000 = n % 1000 + 1 ∧ (n + 1) / 1000 = n / 1000 := by omega
        have other : BitVec.ofNat 64 (n % 1000 + 1) ≠ timerFrequency := by
          intro same
          have value := congrArg BitVec.toNat same
          rw [BitVec.toNat_ofNat, Nat.mod_eq_of_lt (by omega)] at value
          exact full value
        rw [if_neg other, part.1, part.2]

/-- From an instant at which the clock is read the time is counted in seconds, twelve hours off where a clock of twelve hours
shows twelve. -/
theorem current_time {cmos : Cmos} {clock : Nat → Tm} {w patience fuel : Nat} (ticking : cmos.Ticking clock w)
    (patient : w < patience) (rounds : 3 ≤ fuel) (t : Nat) (wday yday : Int) :
    ∃ timer u, timerInit cmos patience fuel t wday yday = some timer ∧ (t ≤ u ∧ u ≤ t + 5 * (w + 7)) ∧
      ∀ n, (tickHandler^[n] timer).getCurrentTime =
        BitVec.ofInt 64 ((clock u).seconds + 3600 * Cmos.skew cmos.regB (clock u).hour + n / 1000) := by
  obtain ⟨stop, u, window, read⟩ := Cmos.rtcGetCurrentTime_snapshot ticking patient rounds t wday yday
  have seconds := Cmos.mktime_convert (ticking.valid u) (ticking.century u) cmos.regB wday yday
  refine ⟨_, u, by rw [timerInit, read]; rfl, window, fun n => ?_⟩
  rw [seconds, ticked, getCurrentTime]
  dsimp only
  rw [← BitVec.ofInt_natCast, ← BitVec.ofInt_add, Int.natCast_ediv]
  rfl

-- the last second of a year, and behind it the first one of the next
def newYear (t : Nat) : Tm := if t ≤ 10 then ⟨59, 59, 23, 31, 12, 2024, 0, 0⟩ else ⟨0, 0, 0, 1, 1, 2025, 0, 0⟩

def twelveHours : Cmos := ⟨fun t => Cmos.encode 0 (newYear t), fun _ => false, 0⟩

theorem current_time_new_year : ∃ timer u, timerInit twelveHours 1 3 0 0 0 = some timer ∧ (0 ≤ u ∧ u ≤ 0 + 5 * (0 + 7)) ∧
    ∀ n, (tickHandler^[n] timer).getCurrentTime =
      BitVec.ofInt 64 ((newYear u).seconds + 3600 * Cmos.skew twelveHours.regB (newYear u).hour + n / 1000) := by
  have before {t : Nat} (early : t ≤ 10) : newYear t = _ := if_pos early
  have after {t : Nat} (late : ¬ t ≤ 10) : newYear t = _ := if_neg late
  have change {t : Nat} (changes : Cmos.ChangesAt twelveHours.registers t) : t = 10 := by
    by_contra other
    refine changes ?_
    rcases lt_or_gt_of_ne other with early | late
    · exact congrArg (Cmos.encode 0) ((before early.le).trans (before (Nat.succ_le_of_lt early)).symm)
    · exact congrArg (Cmos.encode 0) ((after (by omega)).trans (after (by omega)).symm)
  have ticking : twelveHours.Ticking newYear 0 := by
    refine ⟨fun _ => rfl, fun t => ?_, fun t => ?_, fun t => ⟨t, le_rfl, le_rfl, rfl⟩, fun t u first second less => ?_⟩
    · rw [newYear]
      split_ifs <;> constructor <;> decide
    · rw [newYear]
      split_ifs <;> decide
    · rw [change first, change second] at less
      exact absurd less (lt_irrefl 10)
  exact current_time ticking (by decide) le_rfl 0 0 0

end Timer
end Kerosene.Driver
