import Mathlib.Algebra.BigOperators.Group.List.Basic
import Mathlib.Data.List.Basic
import Mathlib.Algebra.GroupWithZero.Nat

/-!
# Counting semaphores with hand-off

A waiter asks for a number of permits and waits in line. A release serves the line from its front,
as long as the permits suffice, so that a served waiter owns its permits before it runs.
-/

namespace Kerosene.Lib
variable {π : Type*}

structure Semaphore (π : Type*) where
  count : Nat
  waiting : List (π × Nat)

namespace Semaphore

def acquire (sem : Semaphore π) (p : π) (n : Nat) : Bool × Semaphore π :=
  if sem.count ≥ n then (true, ⟨sem.count - n, sem.waiting⟩)
  else (false, ⟨sem.count, sem.waiting ++ [(p, n)]⟩)

def serve : Nat → List (π × Nat) → List π × Semaphore π
  | count, [] => ([], ⟨count, []⟩)
  | count, (p, n) :: rest =>
      if count ≥ n then
        let (served, sem) := serve (count - n) rest
        (p :: served, sem)
      else ([], ⟨count, (p, n) :: rest⟩)

def release (sem : Semaphore π) (n : Nat) : List π × Semaphore π := serve (sem.count + n) sem.waiting

theorem serve_spec (count : Nat) (waiting : List (π × Nat)) :
    ∃ front, waiting = front ++ (serve count waiting).2.waiting ∧ (serve count waiting).1 = front.map Prod.fst ∧
      count = (serve count waiting).2.count + (front.map Prod.snd).sum := by
  induction waiting generalizing count with
  | nil => exact ⟨[], rfl, rfl, rfl⟩
  | cons waiter rest ih =>
      obtain ⟨p, n⟩ := waiter
      rw [serve]
      split_ifs with enough
      · obtain ⟨front, split, served, permits⟩ := ih (count - n)
        refine ⟨(p, n) :: front, congrArg _ split, congrArg _ served, ?_⟩
        rw [List.map_cons, List.sum_cons]
        change count = (serve (count - n) rest).2.count + _
        omega
      · exact ⟨[], rfl, rfl, rfl⟩

theorem release_spec (sem : Semaphore π) (n : Nat) :
    ∃ front, sem.waiting = front ++ (sem.release n).2.waiting ∧ (sem.release n).1 = front.map Prod.fst ∧
      sem.count + n = (sem.release n).2.count + (front.map Prod.snd).sum :=
  serve_spec (sem.count + n) sem.waiting

/-- The waiters in front are served where what is left does not cover the first of the others. -/
theorem serve_eq {count left : Nat} {front back : List (π × Nat)} (covered : left + (front.map Prod.snd).sum = count)
    (short : ∀ waiter, back.head? = some waiter → left < waiter.2) :
    serve count (front ++ back) = (front.map Prod.fst, ⟨left, back⟩) := by
  induction front generalizing count with
  | nil =>
      obtain rfl : left = count := covered
      cases back with
      | nil => rfl
      | cons waiter back =>
          have first := short waiter rfl
          rw [List.nil_append, serve, if_neg (Nat.not_le.mpr first)]
          rfl
  | cons waiter front ih =>
      rw [List.map_cons, List.sum_cons] at covered
      rw [List.cons_append, serve, if_pos (by omega), ih (by omega)]
      rfl

end Semaphore
end Kerosene.Lib
