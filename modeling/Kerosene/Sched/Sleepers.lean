import Kerosene.Lib.Alarms
import Kerosene.Sched.Locations

/-!
# Sleepers wake on time

The sleep queue with its tick counter is a line of alarms. As long as the counter cannot overflow, a
sleeper leaves it at exactly the tick it asked for.
-/

namespace Kerosene.Sched
open Lib

def SchedCall.isSwitch {S : Type} : SchedCall S → Bool
  | .switch _ => true
  | _ => false

/-- How often the timer interrupt calls `scheduler_switch`. -/
def ticks {S : Type} (calls : List (SchedCall S)) : Nat := calls.countP SchedCall.isSwitch

namespace Scheduler
variable {S : Type} [DecidableEq S] {s s' t : Scheduler S} {lines lines' : QueueId S → List Addr} {p : Addr}

def alarms (s : Scheduler S) (line : List Addr) : Alarms Addr :=
  ⟨s.globalSleepTicks.toNat, line.map fun r => (r, (s.proc r).sleepTicks.toNat)⟩

omit [DecidableEq S] in
theorem alarms_congr {line : List Addr} (clock : s'.globalSleepTicks = s.globalSleepTicks)
    (due : ∀ r ∈ line, (s'.proc r).sleepTicks = (s.proc r).sleepTicks) : s'.alarms line = s.alarms line := by
  simp only [alarms, clock, Alarms.mk.injEq, true_and]
  exact List.map_congr_left fun r member => by rw [due r member]

omit [DecidableEq S] in
theorem of_mem_alarms {line : List Addr} {due : Nat} (member : (p, due) ∈ (s.alarms line).line) : p ∈ line := by
  obtain ⟨r, inside, same⟩ := List.mem_map.mp member
  cases same
  exact inside

omit [DecidableEq S] in
theorem FallsAsleep.joins {ticks : BitVec 32} {due : BitVec 64} (asleep : FallsAsleep s s' lines lines' due)
    (isDue : due = ticks.setWidth 64 + s.globalSleepTicks)
    (same : ∀ r ∈ lines .sleep, (s'.proc r).sleepTicks = (s.proc r).sleepTicks)
    (clock : s'.globalSleepTicks = s.globalSleepTicks) (small : s.globalSleepTicks.toNat < 2 ^ 63) :
    Alarms.Joins s.currentProcess (ticks.toNat + s.globalSleepTicks.toNat) (s.alarms (lines .sleep))
      (s'.alarms (lines' .sleep)) := by
  obtain ⟨⟨front, back, before, after, early, late⟩, own⟩ := asleep
  have dueNat : due.toNat = ticks.toNat + s.globalSleepTicks.toNat := by
    have := ticks.isLt
    rw [isDue, BitVec.toNat_add, BitVec.toNat_setWidth, Nat.mod_eq_of_lt (by omega), Nat.mod_eq_of_lt (by omega)]
  have rest : ∀ l : List Addr, (∀ r ∈ l, r ∈ lines .sleep) →
      (l.map fun r => (r, (s'.proc r).sleepTicks.toNat)) = l.map fun r => (r, (s.proc r).sleepTicks.toNat) := by
    intro l inside
    exact List.map_congr_left fun r member => by rw [same r (inside r member)]
  refine ⟨congrArg BitVec.toNat clock, front.map fun r => (r, (s.proc r).sleepTicks.toNat),
    back.map fun r => (r, (s.proc r).sleepTicks.toNat), by simp [alarms, before], ?_, ?_, ?_⟩
  · simp only [alarms, after, List.map_append, List.map_cons, own, dueNat]
    rw [rest front fun r member => before ▸ List.mem_append_left _ member,
      rest back fun r member => before ▸ List.mem_append_right _ member]
  · intro x member
    obtain ⟨r, inFront, rfl⟩ := List.mem_map.mp member
    have := BitVec.lt_def.mp (early r inFront)
    rw [dueNat] at this
    exact this
  · intro x first
    rw [List.head?_map] at first
    obtain ⟨r, isFirst, rfl⟩ := Option.map_eq_some_iff.mp first
    have := BitVec.not_lt.mp (late r isFirst)
    rw [BitVec.le_def, dueNat] at this
    exact this

theorem Wakes.ticked {front back : List Addr} (wakes : Wakes s s' lines front back)
    (small : s.globalSleepTicks.toNat < 2 ^ 63) :
    Alarms.Ticked (front.map fun r => (r, (s.proc r).sleepTicks.toNat)) (back.map fun r => (r, (s.proc r).sleepTicks.toNat))
      (s.alarms (lines .sleep)) (s'.alarms back) := by
  have next : (s.globalSleepTicks + 1#64).toNat = s.globalSleepTicks.toNat + 1 := by
    rw [BitVec.toNat_add]
    exact Nat.mod_eq_of_lt (by simp only [BitVec.toNat_ofNat]; omega)
  refine ⟨by simp [alarms, wakes.line], ?_, ?_, ?_, ?_, ?_⟩
  · exact List.map_congr_left fun r _ => by rw [wakes.requests.sleepTicks]
  · intro x member
    obtain ⟨r, inFront, rfl⟩ := List.mem_map.mp member
    have := BitVec.le_def.mp (wakes.due r inFront)
    rw [next] at this
    exact this
  · intro x first
    rw [List.head?_map] at first
    obtain ⟨r, isFirst, rfl⟩ := Option.map_eq_some_iff.mp first
    have := BitVec.not_le.mp (wakes.early r isFirst)
    rw [BitVec.lt_def, next] at this
    exact this
  · intro waiting
    have stays : ¬ back = [] := fun empty => waiting (by rw [empty]; rfl)
    have sleepers : ¬ lines .sleep = [] := by
      rw [wakes.line]
      simp [stays]
    rw [alarms, wakes.clock, tickedClock, if_neg sleepers, if_neg stays]
    exact next
  · simp only [alarms, wakes.clock, tickedClock]
    split_ifs
    · omega
    · simp
    · exact next.le

/-- The process sleeps: it is in the sleep queue, not ready and not running. -/
structure Asleep (s : Scheduler S) (p : Addr) : Prop where
  sleeps : p ∈ s.members .sleep
  notReady : p ∉ s.members .ready
  notRunning : s.currentProcess ≠ p

/-- The next `scheduler_switch` moves the process from the sleep queue to the ready queue. -/
def WakesUp (s : Scheduler S) (p : Addr) : Prop :=
  ∃ deleted t u, deleteLoop (s.queue .delete).size s = some (deleted, t) ∧ t.wakeSleepers = some u ∧
    p ∈ t.members .sleep ∧ p ∈ u.members .ready ∧ p ∉ u.members .sleep

end Scheduler

namespace Running
open Scheduler
variable {S : Type} [DecidableEq S] {r r₀ r₁ t : Running S} {idle p : Addr} {lines : QueueId S → List Addr}
  {place : Addr → Place S} {call : SchedCall S} {calls : List (SchedCall S)} {due clock : Nat}

theorem exec_alarms (inv : r.sched.Inv idle r.live lines place (some r.sched.currentProcess)) (legal : r.Legal idle call)
    (done : r.exec call = some t) (small : r.sched.globalSleepTicks.toNat < 2 ^ 63) :
    ∃ lines' place', t.sched.Inv idle t.live lines' place' (some t.sched.currentProcess) ∧
      Alarms.Step (r.sched.alarms (lines .sleep)) call.isSwitch (t.sched.alarms (lines' .sleep)) := by
  obtain ⟨u, lines', same, ⟨place', kept⟩, _, effect⟩ := exec_effect inv legal
  cases same.symm.trans done
  refine ⟨lines', place', kept, ?_⟩
  have unmoved : lines' .sleep = lines .sleep ∧ t.sched.globalSleepTicks = r.sched.globalSleepTicks →
      Alarms.Step (r.sched.alarms (lines .sleep)) false (t.sched.alarms (lines' .sleep)) := by
    rintro ⟨line, ticks⟩
    rw [line, alarms_congr ticks (effect.sleepTicks .sleep)]
    exact .idle _
  have sleepers := effect.sleepers
  cases call with
  | sleep regs ticks => exact .join (sleepers.1.joins rfl (effect.sleepTicks .sleep) sleepers.2 small)
  | switch regs =>
      obtain ⟨v, w, front, back, deleted, linked, before, woke, wakes, after, line⟩ := sleepers.wakes
      have ticked := wakes.ticked (by rw [before.ticks]; exact small)
      rw [Function.update_of_ne (by simp), alarms_congr before.ticks fun q _ => before.sleepTicks q] at ticked
      rw [line, alarms_congr after.ticks fun q _ => after.sleepTicks q]
      exact .tick ticked
  | add | yield | kill | attach | acquire | release => exact unmoved sleepers

/-- The sleepers are in order, and the counter has not run ahead of the ticks. -/
def Timed (idle : Addr) (elapsed : Nat) (r : Running S) : Prop :=
  ∃ lines place, r.sched.Inv idle r.live lines place (some r.sched.currentProcess) ∧
    (r.sched.alarms (lines .sleep)).Ordered ∧ r.sched.globalSleepTicks.toNat ≤ elapsed

omit [DecidableEq S] in
theorem ticks_concat (calls : List (SchedCall S)) (call : SchedCall S) :
    ticks (calls ++ [call]) = ticks calls + call.isSwitch.toNat := by
  rw [ticks, List.countP_append, ticks]
  cases h : call.isSwitch <;> simp [h]

theorem timed_of_runs (start : r₀.Timed idle 0) (run : (scheduling idle).Runs r₀ calls r) (few : ticks calls < 2 ^ 63) :
    r.Timed idle (ticks calls) := by
  induction run with
  | start => exact start
  | @snoc calls r t call _ legal step ih =>
      rw [ticks_concat] at few ⊢
      obtain ⟨lines, place, inv, ordered, clock⟩ := ih (by omega)
      obtain ⟨lines', place', kept, move⟩ := exec_alarms inv legal step (by omega)
      have := move.clock_le
      exact ⟨lines', place', kept, move.ordered ordered, by simp only [alarms] at this; omega⟩

/-- `p` sleeps until the counter shows `due`; it shows `clock` now. -/
def Sleeping (idle p : Addr) (due clock : Nat) (r : Running S) : Prop :=
  ∃ lines place, r.sched.Inv idle r.live lines place (some r.sched.currentProcess) ∧
    (r.sched.alarms (lines .sleep)).Ordered ∧ (p, due) ∈ (r.sched.alarms (lines .sleep)).line ∧
    r.sched.globalSleepTicks.toNat = clock

theorem Timed.sleep {elapsed : Nat} {regs : Regs} {n : BitVec 32} (timed : r.Timed idle elapsed)
    (awake : r.sched.currentProcess ≠ idle) (slept : r.exec (.sleep regs n) = some r₀) (few : elapsed < 2 ^ 63) :
    ∃ clock ≤ elapsed, r₀.Sleeping idle r.sched.currentProcess (n.toNat + clock) clock := by
  obtain ⟨lines, place, inv, ordered, bound⟩ := timed
  obtain ⟨u, lines', same, ⟨place', kept⟩, _, effect⟩ := exec_effect inv (c := .sleep regs n) awake
  cases same.symm.trans slept
  have joins := effect.sleepers.1.joins rfl (effect.sleepTicks .sleep) effect.sleepers.2 (by omega)
  refine ⟨r.sched.globalSleepTicks.toNat, bound, lines', place', kept, joins.ordered ordered, ?_, joins.1⟩
  exact (joins.mem_iff _).mpr (.inl rfl)

theorem Sleeping.runs {n : Nat} (sleeping : r₀.Sleeping idle p (n + clock) clock)
    (run : (scheduling idle).Runs r₀ calls r₁) (few : clock + ticks calls < 2 ^ 63) (early : ticks calls < max n 1) :
    r₁.Sleeping idle p (n + clock) (clock + ticks calls) := by
  induction run with
  | start => exact sleeping
  | @snoc calls r t call _ legal step ih =>
      rw [ticks_concat] at few early ⊢
      obtain ⟨lines, place, inv, ordered, member, now⟩ := ih (by omega) (by omega)
      obtain ⟨lines', place', kept, move⟩ := exec_alarms inv legal step (by omega)
      have notYet : call.isSwitch = true → (r.sched.alarms (lines .sleep)).clock + 1 < n + clock := by
        intro isTick
        rw [isTick, Bool.toNat_true] at early
        simp only [alarms]
        omega
      obtain ⟨stays, counted⟩ := move.keeps ordered member notYet
      simp only [alarms] at counted
      exact ⟨lines', place', kept, move.ordered ordered, stays, by omega⟩

omit [DecidableEq S] in
theorem Sleeping.asleep (sleeping : r.Sleeping idle p due clock) : r.sched.Asleep p := by
  obtain ⟨lines, place, inv, _, member, _⟩ := sleeping
  have inside := of_mem_alarms member
  refine ⟨by rw [inv.linked.members]; exact inside, ?_, (inv.not_current inside).symm⟩
  rw [inv.linked.members]
  exact inv.linked.apart .sleep .ready (by simp) p inside

theorem Sleeping.wakesUp (sleeping : r.Sleeping idle p due clock) (isDue : due ≤ clock + 1) (small : clock < 2 ^ 63)
    (regs : Regs) : r.sched.WakesUp p ∧ ∃ t, r.exec (.switch regs) = some t ∧ p ∉ t.sched.members .sleep := by
  obtain ⟨lines, place, inv, ordered, member, now⟩ := sleeping
  obtain ⟨t, lines', done, ⟨place', kept⟩, _, effect⟩ := exec_effect inv (c := .switch regs) trivial
  obtain ⟨v, w, front, back, deleted, linked, before, woke, wakes, after, line⟩ := effect.sleepers.wakes
  have sleepers : Function.update lines .delete [] .sleep = lines .sleep := Function.update_of_ne (by simp) _ _
  have ticked := wakes.ticked (by rw [before.ticks]; omega)
  rw [sleepers, alarms_congr before.ticks fun q _ => before.sleepTicks q] at ticked
  have inside := of_mem_alarms member
  obtain ⟨inFront, notBack⟩ := (ticked.stays_iff ordered member).2 (by simp only [alarms]; omega)
  have inFront : p ∈ front := by
    obtain ⟨q, isFront, same⟩ := List.mem_map.mp inFront
    cases same
    exact isFront
  have split : lines .sleep = front ++ back := sleepers.symm.trans wakes.line
  have gone : p ∉ back := by
    have nodup : (front ++ back).Nodup := split ▸ (inv.linked.holds .sleep).seg.nodup
    exact fun inBack => (List.nodup_append'.mp nodup).2.2 inFront inBack
  refine ⟨⟨lines .delete, v, w, deleted, woke, ?_, ?_, ?_⟩, t, done, ?_⟩
  · rw [linked.members, sleepers]
    exact inside
  · rw [wakes.becomes.linked.members]
    simp [released, inFront]
  · rw [wakes.becomes.linked.members]
    simpa [released] using gone
  · rw [kept.linked.members, line]
    exact gone

omit [DecidableEq S] in
theorem initial_timed (proc : Heap) (semCount : S → BitVec 32) (idle : Addr) (pageDirectory tssStack : BitVec 32)
    (isIdle : (proc idle).id = 1) : (initial proc semCount idle pageDirectory tssStack).Timed idle 0 :=
  ⟨_, _, initial_inv proc semCount idle pageDirectory tssStack isIdle, List.Pairwise.nil, Nat.le_refl 0⟩

/-- A process that asks to sleep for `n` ticks is asleep until `scheduler_switch` has been called
`max n 1` times, whatever happens in between, and the last of these calls wakes it. -/
theorem sleep_is_exact (proc : Heap) (semCount : S → BitVec 32) (idle : Addr) (pageDirectory tssStack : BitVec 32)
    (isIdle : (proc idle).id = 1) {before after : List (SchedCall S)}
    (boot : (scheduling idle).Runs (initial proc semCount idle pageDirectory tssStack) before r) {regs : Regs}
    {n : BitVec 32} (awake : r.sched.currentProcess ≠ idle) (slept : r.exec (.sleep regs n) = some r₀)
    (run : (scheduling idle).Runs r₀ after r₁) (few : ticks before + ticks after < 2 ^ 63) :
    (ticks after < max n.toNat 1 → r₁.sched.Asleep r.sched.currentProcess) ∧
    (ticks after + 1 = max n.toNat 1 → ∀ regs, r₁.sched.WakesUp r.sched.currentProcess ∧
      ∃ t, r₁.exec (.switch regs) = some t ∧ r.sched.currentProcess ∉ t.sched.members .sleep) := by
  have timed := timed_of_runs (initial_timed proc semCount idle pageDirectory tssStack isIdle) boot (by omega)
  obtain ⟨clock, bound, sleeping⟩ := timed.sleep awake slept (by omega)
  refine ⟨fun early => ?_, fun last regs => ?_⟩
  · exact (sleeping.runs run (by omega) early).asleep
  · exact (sleeping.runs run (by omega) (by omega)).wakesUp (by omega) (by omega) regs

theorem sleep_is_exact_one_tick :
    ∃ r r₀ : Running Unit, (∃ calls, (scheduling 1).Runs (bootedWith none) calls r) ∧ r.sched.currentProcess = 2 ∧
      r.exec (.sleep ⟨0#32, 0#32⟩ 1#32) = some r₀ ∧ r₀.sched.Asleep 2 ∧ r₀.sched.WakesUp 2 := by
  have added : (scheduling 1).Legal (bootedWith none) (.add 2 (blankProcess 2 none)) := ⟨by decide, rfl⟩
  have first := Machine.Runs.snoc .start added rfl
  have yields (r : Running Unit) : (scheduling 1).Legal r (.yield ⟨0#32, 0#32⟩) := trivial
  have boot := first.snoc (yields _) rfl
  have exact := sleep_is_exact _ _ 1 _ _ rfl boot (by decide)
    (show Running.exec _ (.sleep ⟨0#32, 0#32⟩ 1#32) = some _ from rfl) .start (by decide)
  exact ⟨_, _, ⟨_, boot⟩, rfl, rfl, exact.1 (by decide), (exact.2 (by decide) ⟨0#32, 0#32⟩).1⟩

end Running
end Kerosene.Sched
