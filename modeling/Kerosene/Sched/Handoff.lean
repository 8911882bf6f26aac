import Kerosene.Lib.Semaphore
import Kerosene.Sched.Effects

/-!
# The semaphores of the scheduler

The waiting queue and the 32-bit count of a semaphore are a counting semaphore with hand-off, as long as
no release makes the count wrap around.
-/

namespace Kerosene.Sched.Running
open Lib Scheduler
variable {S : Type} [DecidableEq S]

/-- The permits that are there, and who waits for how many. -/
def permits (s : Scheduler S) (sem : S) : Semaphore Addr where
  count := (s.semCount sem).toNat
  waiting := (s.members (.waiting sem)).map fun p => (p, (s.proc p).waitingForResourceCount.toNat)

/-- What a call of the scheduler is for the semaphore `sem`. -/
def PermitEffect (s t : Scheduler S) (sem : S) : SchedCall S → Prop
  | .acquire _ used count =>
      if used = sem then permits t sem = ((permits s sem).acquire s.currentProcess count.toNat).2
      else permits t sem = permits s sem
  | .release used count =>
      if used = sem then (s.semCount sem).toNat + count.toNat < 2 ^ 32 →
        permits t sem = ((permits s sem).release count.toNat).2 ∧
          t.members .ready = s.members .ready ++ ((permits s sem).release count.toNat).1
      else permits t sem = permits s sem
  | _ => permits t sem = permits s sem

section Effect
variable {s t : Scheduler S} {lines lines' : QueueId S → List Addr} {sem : S}

omit [DecidableEq S] in
theorem permits_eq (linked : s.Linked lines) : permits s sem =
    ⟨(s.semCount sem).toNat, (lines (.waiting sem)).map fun p => (p, (s.proc p).waitingForResourceCount.toNat)⟩ := by
  rw [permits, linked.members]

variable (before : s.Linked lines) (after : t.Linked lines')
  (wanted : ∀ r ∈ lines (.waiting sem), (t.proc r).waitingForResourceCount = (s.proc r).waitingForResourceCount)
include before after

omit [DecidableEq S] in
include wanted in
theorem permits_bypassed (bypassed : Bypassed s t lines lines' sem) : permits t sem = permits s sem := by
  rw [permits_eq before, permits_eq after, bypassed.1, bypassed.2]
  congr 1
  exact List.map_congr_left fun r member => by rw [wanted r member]

omit [DecidableEq S] in
include wanted in
theorem permits_acquire {count : BitVec 32} (effect : if s.semCount sem ≥ count then
      lines' (.waiting sem) = lines (.waiting sem) ∧ t.semCount sem = s.semCount sem - count
    else Blocks s t lines lines' sem count) :
    permits t sem = ((permits s sem).acquire s.currentProcess count.toNat).2 := by
  have kept : ((lines (.waiting sem)).map fun p => (p, (t.proc p).waitingForResourceCount.toNat)) =
      (lines (.waiting sem)).map fun p => (p, (s.proc p).waitingForResourceCount.toNat) :=
    List.map_congr_left fun r member => by rw [wanted r member]
  rw [permits_eq before, permits_eq after, Semaphore.acquire]
  split_ifs at effect with enough
  · rw [if_pos (BitVec.le_def.mp enough), effect.1, effect.2, BitVec.toNat_sub_of_le enough, kept]
  · rw [if_neg fun covered => enough (BitVec.le_def.mpr covered), effect.line, List.map_append, kept,
      congrFun effect.steady.semCount sem, List.map_singleton, effect.wanted]
    rfl

theorem permits_release {count : BitVec 32} {front back : List Addr}
    (serves : Serves s t lines sem (s.semCount sem + count) front back) (line : lines' = released lines (.waiting sem) front back)
    (fits : (s.semCount sem).toNat + count.toNat < 2 ^ 32) :
    permits t sem = ((permits s sem).release count.toNat).2 ∧
      t.members .ready = s.members .ready ++ ((permits s sem).release count.toNat).1 := by
  have total : (s.semCount sem + count).toNat = (s.semCount sem).toNat + count.toNat := BitVec.toNat_add_of_lt fits
  have rest : (lines' (.waiting sem)) = back := by
    rw [line]
    simp [released]
  have ready : lines' .ready = lines .ready ++ front := by
    rw [line]
    simp [released]
  have split : ((permits s sem).release count.toNat) = (front, permits t sem) := by
    have kept : ∀ r, (t.proc r).waitingForResourceCount = (s.proc r).waitingForResourceCount := serves.requests.wanted
    rw [permits_eq before, permits_eq after, rest, Semaphore.release, serves.line, List.map_append, ← total]
    simp only [kept]
    rw [Semaphore.serve_eq (by rw [List.map_map]; exact serves.covered) fun waiter first => ?_, List.map_map]
    · rw [show (Prod.fst ∘ fun p => (p, (s.proc p).waitingForResourceCount.toNat)) = id from rfl, List.map_id]
    · rw [List.head?_map] at first
      obtain ⟨r, head, rfl⟩ := Option.map_eq_some_iff.mp first
      exact BitVec.lt_def.mp (serves.short r head)
  rw [split, before.members, after.members, ready]
  exact ⟨rfl, rfl⟩

end Effect

/-- In every run the calls of the scheduler acquire and release permits as a counting semaphore does, where no release
makes a count wrap around. -/
theorem semaphores_refine (proc : Heap) (semCount : S → BitVec 32) (idle : Addr) (pageDirectory tssStack : BitVec 32)
    (isIdle : (proc idle).id = 1) {r : Running S}
    (boot : (Running.scheduling idle).Reaches (Running.initial proc semCount idle pageDirectory tssStack) r)
    {call : SchedCall S} (legal : r.Legal idle call) :
    ∃ t, r.exec call = some t ∧ ∀ sem, PermitEffect r.sched t.sched sem call := by
  obtain ⟨lines, place, inv⟩ := sound_of_reaches (initial_sound proc semCount idle pageDirectory tssStack isIdle) boot
  obtain ⟨t, lines', done, ⟨place', kept⟩, -, effect⟩ := exec_effect inv legal
  refine ⟨t, done, fun sem => ?_⟩
  have waiters := effect.waiters sem
  have bypass : Bypassed r.sched t.sched lines lines' sem → permits t.sched sem = permits r.sched sem :=
    permits_bypassed inv.linked kept.linked (effect.wanted (.waiting sem))
  cases call with
  | acquire regs used count =>
      simp only [WaitEffect] at waiters
      simp only [PermitEffect]
      by_cases here : used = sem
      · rw [if_pos here] at waiters ⊢
        exact permits_acquire inv.linked kept.linked (effect.wanted (.waiting sem)) waiters
      · rw [if_neg here] at waiters ⊢
        exact bypass waiters
  | release used count =>
      simp only [WaitEffect] at waiters
      simp only [PermitEffect]
      by_cases here : used = sem
      · rw [if_pos here] at waiters ⊢
        obtain ⟨front, back, serves, line⟩ := waiters
        exact permits_release inv.linked kept.linked serves line
      · rw [if_neg here] at waiters ⊢
        exact bypass waiters
  | add | yield | sleep | kill | attach | switch => exact bypass waiters

end Kerosene.Sched.Running
