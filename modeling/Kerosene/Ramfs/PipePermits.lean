import Kerosene.Ramfs.PipeData
import Mathlib.Algebra.Group.Action.Defs
import Mathlib.Algebra.Order.BigOperators.Group.Finset
import Mathlib.Data.Fintype.BigOperators

/-!
# The permits of a pipe

The permits of a pipe's two semaphores, free or held, count its unread bytes and its free space.
-/

namespace Kerosene.Ramfs.Pipe
open Lib
variable {π : Type} {s : Pipe π} {p q : π} {name other : SemaphoreName} {op : PipeOp}
variable {phase onward line : Phase} {unread : List UInt8} {nodes : List Addr}

/-! ## Permits -/

def holds (name : SemaphoreName) : Phase → Nat
  | .granted op | .awaitsLock op | .locked op | .awaitsBulk op _ => if op.takes = name then 1 else 0
  | .copies op total => if op.takes = name then total else 0
  | _ => 0

def awaits : Phase → Option SemaphoreName
  | .awaitsEntry _ | .awaitsLock _ => some .lock
  | .awaitsFirst op | .awaitsBulk op _ => some op.takes
  | _ => none

/-- No bulk acquire has blocked, and only calls with something to move get past their start. -/
def Steady : Phase → Prop
  | .awaitsFirst op | .granted op | .awaitsLock op | .locked op => op.size ≠ 0
  | .awaitsBulk _ _ | .copies _ _ => False
  | _ => True

theorem holds_served (steady : Steady phase) (waits : awaits phase = some name) (pipe : other ≠ .lock) :
    holds other phase.served = holds other phase + if name = other then 1 else 0 := by
  cases phase with
  | awaitsEntry op =>
      cases waits
      simp [holds, Phase.served, pipe.symm]
  | awaitsFirst op =>
      cases waits
      simp [holds, Phase.served]
  | awaitsLock op =>
      cases waits
      simp [holds, Phase.served, pipe.symm]
  | awaitsBulk op total => cases steady
  | _ => cases waits

theorem steady_served (steady : Steady phase) : Steady phase.served := by
  cases phase with
  | awaitsBulk op total => cases steady
  | awaitsEntry op => trivial
  | _ => exact steady

structure Line (s : Pipe π) (name : SemaphoreName) : Prop where
  one : ∀ waiter ∈ (s.semaphore name).waiting, waiter.2 = 1
  waits : ∀ waiter ∈ (s.semaphore name).waiting, awaits (s.phase waiter.1) = some name
  nodup : ((s.semaphore name).waiting.map Prod.fst).Nodup

@[simp] theorem semaphore_setSemaphore (s : Pipe π) (name : SemaphoreName) (sem : Semaphore π) :
    (s.setSemaphore name sem).semaphore name = sem := by cases name <;> rfl

theorem semaphore_setSemaphore_ne (differ : other ≠ name) (s : Pipe π) (sem : Semaphore π) :
    (s.setSemaphore name sem).semaphore other = s.semaphore other := by
  cases name <;> cases other <;> first | rfl | exact absurd rfl differ

@[simp] theorem phase_setSemaphore (s : Pipe π) (name : SemaphoreName) (sem : Semaphore π) :
    (s.setSemaphore name sem).phase = s.phase := by cases name <;> rfl

theorem Line.congr {s' : Pipe π} (line : s.Line name) (same : s'.semaphore name = s.semaphore name)
    (phases : ∀ q, awaits (s.phase q) = some name → s'.phase q = s.phase q) : s'.Line name := by
  refine ⟨?_, ?_, ?_⟩
  · rw [same]
    exact line.one
  · intro waiter member
    rw [same] at member
    rw [phases waiter.1 (line.waits waiter member)]
    exact line.waits waiter member
  · rw [same]
    exact line.nodup

variable [DecidableEq π]

@[simp] theorem semaphore_setPhase (s : Pipe π) (p : π) (phase : Phase) :
    (s.setPhase p phase).semaphore = s.semaphore := by funext name; cases name <;> rfl

@[simp] theorem semaphore_serves (s : Pipe π) (served : List π) : (s.serves served).semaphore = s.semaphore := by
  funext name
  cases name <;> rfl

@[simp] theorem phase_setPhase (s : Pipe π) (p : π) (phase : Phase) :
    (s.setPhase p phase).phase = Function.update s.phase p phase := rfl

section Permits
variable [Fintype π]

def held (s : Pipe π) (name : SemaphoreName) : Nat := ∑ q, holds name (s.phase q)

def permits (s : Pipe π) (name : SemaphoreName) : Nat := (s.semaphore name).count + s.held name

theorem held_setPhase (s : Pipe π) (p : π) (phase : Phase) (name : SemaphoreName) :
    (s.setPhase p phase).held name + holds name (s.phase p) = s.held name + holds name phase := by
  have others : ∀ q ∈ Finset.univ.erase p, holds name ((s.setPhase p phase).phase q) = holds name (s.phase q) := by
    intro q member
    rw [phase_setPhase, Function.update_of_ne (Finset.ne_of_mem_erase member)]
  have self : (s.setPhase p phase).phase p = phase := Function.update_self ..
  rw [held, held, ← Finset.add_sum_erase _ _ (Finset.mem_univ p), ← Finset.add_sum_erase _ _ (Finset.mem_univ p),
    Finset.sum_congr rfl others, self]
  omega

theorem held_serves {served : List π} {gain : Nat} (nodup : served.Nodup)
    (gains : ∀ q ∈ served, holds name (s.phase q).served = holds name (s.phase q) + gain) :
    (s.serves served).held name = s.held name + served.length * gain := by
  have each : ∀ q, holds name ((s.serves served).phase q) =
      holds name (s.phase q) + if q ∈ served.toFinset then gain else 0 := by
    intro q
    by_cases member : q ∈ served
    · simp [serves, member, gains q member]
    · simp [serves, member]
  rw [held, held, Finset.sum_congr rfl fun q _ => each q, Finset.sum_add_distrib, Finset.sum_ite_mem,
    Finset.univ_inter, Finset.sum_const, List.toFinset_card_of_nodup nodup, smul_eq_mul]

omit [DecidableEq π] in
theorem held_le (s : Pipe π) (p : π) (name : SemaphoreName) : holds name (s.phase p) ≤ s.held name :=
  Finset.single_le_sum (f := fun q => holds name (s.phase q)) (fun _ _ => Nat.zero_le _) (Finset.mem_univ p)

/-! ## Acquire and release move permits -/

theorem permits_release (line : s.Line name) (steady : ∀ q, Steady (s.phase q)) (pipe : other ≠ .lock) (n : Nat) :
    (s.release name n).permits other = s.permits other + if name = other then n else 0 := by
  obtain ⟨front, split, served, count⟩ := (s.semaphore name).release_spec n
  have members : ∀ waiter ∈ front, waiter ∈ (s.semaphore name).waiting := fun waiter member => by
    rw [split]
    exact List.mem_append_left _ member
  have nodup : (front.map Prod.fst).Nodup := by
    have := line.nodup
    rw [split, List.map_append] at this
    exact (List.nodup_append'.mp this).1
  have sum : (front.map Prod.snd).sum = front.length := by
    rw [List.map_congr_left fun waiter member => line.one waiter (members waiter member)]
    simp
  have gains : ∀ q ∈ front.map Prod.fst, holds other ((s.setSemaphore name ((s.semaphore name).release n).2).phase q).served =
      holds other ((s.setSemaphore name ((s.semaphore name).release n).2).phase q) + if name = other then 1 else 0 := by
    intro q member
    obtain ⟨waiter, inside, rfl⟩ := List.mem_map.mp member
    rw [phase_setSemaphore]
    exact holds_served (steady _) (line.waits waiter (members waiter inside)) pipe
  have change := held_serves nodup gains
  have result : s.release name n = (s.setSemaphore name ((s.semaphore name).release n).2).serves (front.map Prod.fst) := by
    rw [← served]
    rfl
  have before : (s.setSemaphore name ((s.semaphore name).release n).2).held other = s.held other := by
    rw [held, held, phase_setSemaphore]
  rw [permits, permits, result, change, before, semaphore_serves, List.length_map]
  by_cases same : name = other
  · subst same
    rw [semaphore_setSemaphore, if_pos rfl, if_pos rfl]
    omega
  · rw [semaphore_setSemaphore_ne (Ne.symm same), if_neg same, if_neg same]
    omega

theorem permits_move (s : Pipe π) (name other : SemaphoreName) (sem : Semaphore π) (p : π) (phase : Phase) :
    ((s.setSemaphore name sem).setPhase p phase).permits other + holds other (s.phase p) + (s.semaphore other).count =
      s.permits other + holds other phase + if name = other then sem.count else (s.semaphore other).count := by
  have change := held_setPhase (s.setSemaphore name sem) p phase other
  have before : (s.setSemaphore name sem).held other = s.held other := by rw [held, held, phase_setSemaphore]
  rw [phase_setSemaphore, before] at change
  rw [permits, permits, semaphore_setPhase]
  by_cases same : name = other
  · subst same
    rw [semaphore_setSemaphore, if_pos rfl]
    omega
  · rw [semaphore_setSemaphore_ne (Ne.symm same), if_neg same]
    omega

omit [Fintype π] in
theorem acquire_cases (s : Pipe π) (name : SemaphoreName) (p : π) (onward line : Phase) :
    (1 ≤ (s.semaphore name).count ∧ s.acquire name p 1 onward line =
      (s.setSemaphore name ⟨(s.semaphore name).count - 1, (s.semaphore name).waiting⟩).setPhase p onward) ∨
    s.acquire name p 1 onward line =
      (s.setSemaphore name ⟨(s.semaphore name).count, (s.semaphore name).waiting ++ [(p, 1)]⟩).setPhase p line := by
  rw [acquire, Semaphore.acquire]
  split_ifs with enough
  · exact .inl ⟨enough, rfl⟩
  · exact .inr rfl

theorem permits_acquire (taken : holds other onward = holds other (s.phase p) + if name = other then 1 else 0)
    (stays : holds other line = holds other (s.phase p)) :
    (s.acquire name p 1 onward line).permits other = s.permits other := by
  rcases acquire_cases s name p onward line with ⟨enough, done⟩ | done
  · have move := permits_move s name other ⟨(s.semaphore name).count - 1, (s.semaphore name).waiting⟩ p onward
    rw [← done, taken] at move
    by_cases same : name = other
    · subst same
      rw [if_pos rfl, if_pos rfl] at move
      dsimp only at move
      omega
    · rw [if_neg same, if_neg same] at move
      omega
  · have move := permits_move s name other ⟨(s.semaphore name).count, (s.semaphore name).waiting ++ [(p, 1)]⟩ p line
    rw [← done, stays] at move
    by_cases same : name = other
    · subst same
      rw [if_pos rfl] at move
      dsimp only at move
      omega
    · rw [if_neg same] at move
      omega

end Permits

/-! ## The lines keep their order -/

structure Calm (s : Pipe π) : Prop where
  line : ∀ name, s.Line name
  steady : ∀ q, Steady (s.phase q)

theorem Calm.release (calm : s.Calm) (name : SemaphoreName) (n : Nat) : (s.release name n).Calm ∧
    ∀ q, awaits (s.phase q) = none → (s.release name n).phase q = s.phase q := by
  obtain ⟨front, split, served, -⟩ := (s.semaphore name).release_spec n
  have line := calm.line name
  have result : s.release name n = (s.setSemaphore name ((s.semaphore name).release n).2).serves (front.map Prod.fst) := by
    rw [← served]
    rfl
  have waits : ∀ q ∈ front.map Prod.fst, awaits (s.phase q) = some name := by
    intro q member
    obtain ⟨waiter, inside, rfl⟩ := List.mem_map.mp member
    exact line.waits waiter (by rw [split]; exact List.mem_append_left _ inside)
  have phases : ∀ q, (s.release name n).phase q = if q ∈ front.map Prod.fst then (s.phase q).served else s.phase q := by
    intro q
    rw [result]
    simp only [serves, phase_setSemaphore]
  have kept : ∀ q, awaits (s.phase q) ≠ some name → (s.release name n).phase q = s.phase q := by
    intro q other
    rw [phases, if_neg fun member => other (waits q member)]
  refine ⟨⟨fun other => ?_, fun q => ?_⟩, fun q none => kept q (by simp [none])⟩
  · by_cases same : other = name
    · subst same
      have nodup := line.nodup
      rw [split, List.map_append] at nodup
      have apart := List.nodup_append'.mp nodup
      have members : ∀ waiter ∈ ((s.semaphore other).release n).2.waiting, waiter ∈ (s.semaphore other).waiting :=
        fun waiter member => by rw [split]; exact List.mem_append_right _ member
      have now : (s.release other n).semaphore other = ((s.semaphore other).release n).2 := by
        rw [result, semaphore_serves, semaphore_setSemaphore]
      refine ⟨?_, ?_, ?_⟩
      · rw [now]
        exact fun waiter member => line.one waiter (members waiter member)
      · intro waiter member
        rw [now] at member
        rw [phases, if_neg fun front => apart.2.2 front (List.mem_map_of_mem member)]
        exact line.waits waiter (members waiter member)
      · rw [now]
        exact apart.2.1
    · refine (calm.line other).congr ?_ fun q awaiting => kept q ?_
      · rw [result, semaphore_serves, semaphore_setSemaphore_ne same]
      · rw [awaiting]
        simpa using same
  · rw [phases]
    split_ifs
    · exact steady_served (calm.steady q)
    · exact calm.steady q

theorem Calm.setPhase (calm : s.Calm) (free : awaits (s.phase p) = none) (steady : Steady phase) :
    (s.setPhase p phase).Calm := by
  refine ⟨fun name => (calm.line name).congr (by simp) fun q awaiting => ?_, fun q => ?_⟩
  · rw [phase_setPhase, Function.update_of_ne]
    rintro rfl
    rw [free] at awaiting
    cases awaiting
  · rw [phase_setPhase]
    by_cases same : q = p
    · subst same
      rw [Function.update_self]
      exact steady
    · rw [Function.update_of_ne same]
      exact calm.steady q

theorem Calm.acquire (calm : s.Calm) (free : awaits (s.phase p) = none) (onwardSteady : Steady onward)
    (lineSteady : Steady line) (waits : awaits line = some name) : (s.acquire name p 1 onward line).Calm := by
  have outside : ∀ name, p ∉ (s.semaphore name).waiting.map Prod.fst := by
    intro name member
    obtain ⟨waiter, inside, rfl⟩ := List.mem_map.mp member
    rw [(calm.line name).waits waiter inside] at free
    cases free
  rcases acquire_cases s name p onward line with ⟨-, done⟩ | done
  · rw [done]
    refine Calm.setPhase ⟨fun other => ?_, fun q => by rw [phase_setSemaphore]; exact calm.steady q⟩
      (by rw [phase_setSemaphore]; exact free) onwardSteady
    by_cases same : other = name
    · subst same
      have old := calm.line other
      refine ⟨?_, ?_, ?_⟩ <;> simp only [semaphore_setSemaphore, phase_setSemaphore]
      · exact old.one
      · exact old.waits
      · exact old.nodup
    · exact (calm.line other).congr (semaphore_setSemaphore_ne same ..) fun q _ => by rw [phase_setSemaphore]
  · rw [done]
    refine ⟨fun other => ?_, fun q => ?_⟩
    · by_cases same : other = name
      · subst same
        have old := calm.line other
        refine ⟨?_, ?_, ?_⟩ <;> simp only [semaphore_setPhase, semaphore_setSemaphore, phase_setPhase, phase_setSemaphore]
        · intro waiter member
          rcases List.mem_append.mp member with before | new
          · exact old.one waiter before
          · rw [List.mem_singleton.mp new]
        · intro waiter member
          rcases List.mem_append.mp member with before | new
          · rw [Function.update_of_ne]
            · exact old.waits waiter before
            · rintro rfl
              exact outside other (List.mem_map_of_mem before)
          · rw [List.mem_singleton.mp new, Function.update_self]
            exact waits
        · rw [List.map_append, List.nodup_append']
          refine ⟨old.nodup, by simp, ?_⟩
          rw [List.map_singleton, List.disjoint_singleton]
          exact outside other
      · refine (calm.line other).congr ?_ fun q awaiting => ?_
        · rw [semaphore_setPhase, semaphore_setSemaphore_ne same]
        · rw [phase_setPhase, phase_setSemaphore, Function.update_of_ne]
          rintro rfl
          rw [free] at awaiting
          cases awaiting
    · rw [phase_setPhase, phase_setSemaphore]
      by_cases same : q = p
      · subst same
        rw [Function.update_self]
        exact lineSteady
      · rw [Function.update_of_ne same]
        exact calm.steady q

end Kerosene.Ramfs.Pipe
