import Kerosene.Lib.Semaphore
import Kerosene.Lib.Spinlock

/-!
# Semaphores under their spinlocks

`semaphore_acquire` and `semaphore_release`, one access of the semaphore at a time.
-/

namespace Kerosene.Sched
open Lib Relation
open Lib.Spinlock (Move Phase Whole askedBy doneBy)
variable {π τ : Type*}

/-- What comes next between `spinlock_acquire` and `spinlock_release`. -/
inductive Access (π : Type*)
  | acquire (p : π) (count : Nat)
  | subtract (count : Nat)
  | push (p : π) (count : Nat)
  | acquired (enough : Bool)
  | release (count : Nat)
  -- at the head of the loop, with those made ready so far
  | serve (served : List π)
  | pay (p : π) (count : Nat) (served : List π)
  | pop (p : π) (served : List π)
  | released (served : List π)

def access : Semaphore π × Access π → Option (Semaphore π × Access π)
  | (sem, .acquire p count) => some (sem, if sem.count ≥ count then .subtract count else .push p count)
  | (sem, .subtract count) => some (⟨sem.count - count, sem.waiting⟩, .acquired true)
  | (sem, .push p count) => some (⟨sem.count, sem.waiting ++ [(p, count)]⟩, .acquired false)
  | (sem, .release count) => some (⟨sem.count + count, sem.waiting⟩, .serve [])
  | (sem, .serve served) => match sem.waiting with
      | [] => some (sem, .released served)
      | (p, count) :: _ => some (sem, if sem.count ≥ count then .pay p count served else .released served)
  | (sem, .pay p count served) => some (⟨sem.count - count, sem.waiting⟩, .pop p served)
  | (sem, .pop p served) => some (⟨sem.count, sem.waiting.tail⟩, .serve (served ++ [p]))
  | (_, .acquired _) => none
  | (_, .released _) => none

def IsCall : Access π → Prop
  | .acquire _ _ => True
  | .release _ => True
  | _ => False

/-- The calls one after the other, each in one step, with what they answer. -/
inductive Replays (sem : Semaphore π) : List (τ × Access π × Access π) → Semaphore π → Prop
  | nil : Replays sem [] sem
  | acquire {log : List (τ × Access π × Access π)} {now : Semaphore π} {t : τ} (p : π) (count : Nat) : Replays sem log now →
      Replays sem (log ++ [(t, .acquire p count, .acquired (now.acquire p count).1)]) (now.acquire p count).2
  | release {log : List (τ × Access π × Access π)} {now : Semaphore π} {t : τ} (count : Nat) : Replays sem log now →
      Replays sem (log ++ [(t, .release count, .released (now.release count).1)]) (now.release count).2

abbrev Follows (before after : Semaphore π × Access π) : Prop := ReflTransGen (fun a b => access a = some b) before after

theorem whole_acquire (sem : Semaphore π) (p : π) (count : Nat) :
    Whole access (sem, .acquire p count) ((sem.acquire p count).2, .acquired (sem.acquire p count).1) := by
  have first : access (sem, .acquire p count) = some (sem, if sem.count ≥ count then .subtract count else .push p count) := rfl
  refine ⟨.head first ?_, rfl⟩
  rw [Semaphore.acquire]
  split_ifs with enough
  · exact .single rfl
  · exact .single rfl

theorem serve_follows (waiting : List (π × Nat)) (count : Nat) (served : List π) :
    Follows (⟨count, waiting⟩, .serve served)
      ((Semaphore.serve count waiting).2, .released (served ++ (Semaphore.serve count waiting).1)) := by
  induction waiting generalizing count served with
  | nil =>
      rw [Semaphore.serve, List.append_nil]
      exact .single rfl
  | cons waiter rest ih =>
      obtain ⟨p, need⟩ := waiter
      have first : access (⟨count, (p, need) :: rest⟩, .serve served) =
          some (⟨count, (p, need) :: rest⟩, if count ≥ need then .pay p need served else .released served) := rfl
      refine .head first ?_
      rw [Semaphore.serve]
      split_ifs with enough
      · have others := ih (count - need) (served ++ [p])
        rw [List.append_assoc] at others
        exact .head rfl (.head rfl others)
      · rw [List.append_nil]

theorem whole_release (sem : Semaphore π) (count : Nat) :
    Whole access (sem, .release count) ((sem.release count).2, .released (sem.release count).1) :=
  ⟨.head rfl (serve_follows sem.waiting (sem.count + count) []), rfl⟩

theorem replays {sem now : Semaphore π} {log : List (τ × Access π × Access π)} (atomic : Spinlock.Atomic access sem log now)
    (calls : ∀ entry ∈ log, IsCall entry.2.1) : Replays sem log now := by
  induction atomic with
  | nil => exact .nil
  | @snoc log data data' t start last _ whole ih =>
      have before := ih fun entry member => calls entry (List.mem_append_left _ member)
      have call : IsCall start := calls (t, start, last) (List.mem_append_right _ (List.mem_singleton_self _))
      cases start with
      | acquire p count =>
          have same := whole.unique (whole_acquire data p count)
          cases same
          exact before.acquire p count
      | release count =>
          have same := whole.unique (whole_release data count)
          cases same
          exact before.release count
      | _ => exact absurd call id

variable [DecidableEq τ]

theorem mem_moves {log : List (τ × Access π × Access π)} {moves : List (Move τ (Access π))}
    (each : ∀ t, doneBy t log <+: askedBy t moves) {entry : τ × Access π × Access π} (member : entry ∈ log) :
    Move.enter entry.1 entry.2.1 ∈ moves := by
  have finished : entry.2.1 ∈ doneBy entry.1 log := List.mem_filterMap.mpr ⟨entry, member, if_pos rfl⟩
  obtain ⟨move, asked, start⟩ := List.mem_filterMap.mp ((each entry.1).subset finished)
  cases move with
  | access u => cases start
  | enter u first =>
      dsimp only at start
      split_ifs at start with same
      cases start
      rw [← same]
      exact asked

/-- Under its spinlock each call on a semaphore is made as in one step, whatever the order of the accesses. -/
theorem semaphore_atomic {sem : Semaphore π} {moves : List (Move τ (Access π))} {s : Spinlock.State τ (Semaphore π) (Access π)}
    (calls : ∀ t start, Move.enter t start ∈ moves → IsCall start)
    (run : (Spinlock.machine access).Runs (Spinlock.free sem) moves s) :
    ∃ log now, Replays sem log now ∧ (∀ t, doneBy t log ++ (s.phase t).current = askedBy t moves) ∧
      (s.flag = false → now = s.data ∧ ∀ t start at_, s.phase t ≠ .inside start at_) ∧
      (s.flag = true → ∃ t start at_, s.phase t = .inside start at_ ∧ (∀ u a b, s.phase u = .inside a b → u = t) ∧
        Follows (now, start) (s.data, at_)) := by
  obtain ⟨log, now, atomic, each, free, held⟩ := Spinlock.linear run
  have started : ∀ entry ∈ log, IsCall entry.2.1 := fun entry member =>
    calls entry.1 entry.2.1 (mem_moves (fun t => ⟨_, each t⟩) member)
  exact ⟨log, now, replays atomic started, each, free, held⟩

-- a permit is taken while another thread waits for the lock
def contended : List (Move Bool (Access Nat)) :=
  [.enter false (.acquire 7 1), .access false, .enter true (.release 2), .access true, .access false, .access false, .access false]

theorem semaphore_atomic_contended : ∃ (s : Spinlock.State Bool (Semaphore Nat) (Access Nat)) (log : _) (now : Semaphore Nat),
    Replays ⟨1, []⟩ log now ∧ (∀ t, doneBy t log ++ (s.phase t).current = askedBy t contended) ∧ now = s.data := by
  obtain ⟨s, run, unset⟩ : ∃ s, (Spinlock.machine access).Runs (Spinlock.free ⟨1, []⟩) contended s ∧ s.flag = false :=
    ⟨_, .snoc (.snoc (.snoc (.snoc (.snoc (.snoc (.snoc .start trivial rfl) trivial rfl) trivial rfl) trivial rfl) trivial rfl)
      trivial rfl) trivial rfl, rfl⟩
  have calls : ∀ t start, Move.enter t start ∈ contended → IsCall start := by
    intro t start member
    simp only [contended, List.mem_cons, List.not_mem_nil, Move.enter.injEq, reduceCtorEq, or_false, false_or] at member
    rcases member with ⟨-, rfl⟩ | ⟨-, rfl⟩ <;> trivial
  obtain ⟨log, now, replayed, each, free, -⟩ := semaphore_atomic calls run
  exact ⟨s, log, now, replayed, each, (free unset).1⟩

end Kerosene.Sched
