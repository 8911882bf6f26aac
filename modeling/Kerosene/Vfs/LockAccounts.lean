import Kerosene.Vfs.FileLocks
import Mathlib.Algebra.Order.BigOperators.Group.Finset

/-!
# Where the permits of file locks are

A lock starts with one permit. The permit is in its count, or with a process inside a call, or with a
process that called `SYSCALL_LOCK`.
-/

namespace Kerosene.Vfs
open Lib Ramfs

namespace LockPhase

theorem waits_served {phase : LockPhase} {fd : Fin maxFile} (waiting : phase.waits = some fd) :
    phase.holds = none ∧ phase.served.holds = some fd ∧ phase.served.waits = none := by
  cases phase <;> cases waiting
  · exact ⟨rfl, rfl, rfl⟩
  · exact ⟨rfl, rfl, rfl⟩

theorem op_served (phase : LockPhase) : phase.served.op = phase.op := by cases phase <;> rfl

end LockPhase

namespace FileLocks
variable {σ φ ε π : Type} [DecidableEq π] [Fintype π]
variable {s s' : FileLocks σ φ ε π} {p q : π} {fd : Fin maxFile} {a b : Addr} {live : Addr → Prop} {lent : Addr → Nat}
variable {phase onward line : LockPhase}

def waitsFor (s : FileLocks σ φ ε π) (p : π) : Option Addr := (s.phase p).waits.bind (s.files.table p)

def callHolds (s : FileLocks σ φ ε π) (p : π) : Option Addr := (s.phase p).holds.bind (s.files.table p)

/-- How many permits of a lock a process has. -/
def load (s : FileLocks σ φ ε π) (p : π) (a : Addr) : Nat := (if s.callHolds p = some a then 1 else 0) + s.userLocks p a

def held (s : FileLocks σ φ ε π) (a : Addr) : Nat := ∑ p, s.load p a

/-- The permits of the `live` locks are accounted for, where `lent` says how many are on their way
back to the count. -/
structure Locked (live : Addr → Prop) (lent : Addr → Nat) (s : FileLocks σ φ ε π) : Prop where
  waits : ∀ a, live a → ∀ p n, (p, n) ∈ (s.lock a).waiting → n = 1 ∧ s.waitsFor p = some a
  nodup : ∀ a, live a → ((s.lock a).waiting.map Prod.fst).Nodup
  permits : ∀ a, live a → (s.lock a).count + s.held a + lent a = 1

theorem held_change {t : FileLocks σ φ ε π} (others : ∀ q, q ≠ p → t.load q a = s.load q a) :
    t.held a + s.load p a = s.held a + t.load p a := by
  have same : ∑ q ∈ Finset.univ.erase p, t.load q a = ∑ q ∈ Finset.univ.erase p, s.load q a :=
    Finset.sum_congr rfl fun q member => others q (Finset.ne_of_mem_erase member)
  rw [held, held, ← Finset.add_sum_erase _ _ (Finset.mem_univ p), ← Finset.add_sum_erase _ _ (Finset.mem_univ p), same]
  omega

omit [DecidableEq π] in
theorem held_congr (same : ∀ q, s'.load q a = s.load q a) : s'.held a = s.held a := Finset.sum_congr rfl fun q _ => same q

theorem load_add_load_le (other : p ≠ q) (s : FileLocks σ φ ε π) (a : Addr) : s.load p a + s.load q a ≤ s.held a := by
  rw [held, ← Finset.add_sum_erase _ _ (Finset.mem_univ p)]
  have inside : q ∈ Finset.univ.erase p := Finset.mem_erase.mpr ⟨other.symm, Finset.mem_univ q⟩
  exact Nat.add_le_add_left (Finset.single_le_sum (f := fun q => s.load q a) (fun _ _ => Nat.zero_le _) inside) _

/-! ## Phases -/

omit [Fintype π] in
theorem waitsFor_setPhase_of_ne (other : q ≠ p) : (s.setPhase p phase).waitsFor q = s.waitsFor q := by
  simp [waitsFor, setPhase, other]

omit [Fintype π] in
theorem load_setPhase_of_ne (other : q ≠ p) : (s.setPhase p phase).load q a = s.load q a := by
  have same : (s.setPhase p phase).callHolds q = s.callHolds q := by simp [callHolds, setPhase, other]
  rw [load, same, load]
  rfl

omit [Fintype π] in
theorem load_setPhase : (s.setPhase p phase).load p a =
    (if phase.holds.bind (s.files.table p) = some a then 1 else 0) + s.userLocks p a := by
  simp [load, callHolds, setPhase]

-- a process that is in no line moves
theorem Locked.setPhase (locked : Locked live lent s) (running : (s.phase p).waits = none) {lent' : Addr → Nat}
    (moves : ∀ a, live a → (s.setPhase p phase).load p a + lent' a = s.load p a + lent a) :
    Locked live lent' (s.setPhase p phase) := by
  refine ⟨fun a isLive q n waiting => ?_, locked.nodup, fun a isLive => ?_⟩
  · obtain ⟨one, at_⟩ := locked.waits a isLive q n waiting
    have other : q ≠ p := by
      rintro rfl
      rw [waitsFor, running] at at_
      cases at_
    exact ⟨one, by rw [waitsFor_setPhase_of_ne other, at_]⟩
  · have change := held_change (s := s) (t := s.setPhase p phase) (p := p) (a := a) fun q other => load_setPhase_of_ne other
    have before := locked.permits a isLive
    have moved := moves a isLive
    change (s.lock a).count + (s.setPhase p phase).held a + lent' a = 1
    omega

theorem Locked.letGo (locked : Locked live (fun _ => 0) s) (has : (s.phase p).holds = some fd)
    (table : s.files.table p fd = some a) (free : phase.holds = none) :
    Locked live (fun b => if b = a then 1 else 0) (s.setPhase p phase) := by
  have running : (s.phase p).waits = none := by
    cases here : s.phase p <;> rw [here] at has <;> cases has <;> rfl
  refine locked.setPhase running fun b _ => ?_
  rw [load_setPhase, free, load, callHolds, has, Option.bind_none, Option.bind_some, table]
  by_cases same : b = a
  · subst same
    simp only [reduceCtorEq, if_false, if_true]
    omega
  · rw [if_neg (by simp), if_neg same, if_neg (by simpa using Ne.symm same)]

omit [Fintype π] in
theorem load_setUserLocks_of_ne {n : Nat} (other : q ≠ p) : (s.setUserLocks p a n).load q b = s.load q b := by
  rw [load, load, setUserLocks]
  simp only [Function.update_of_ne other]
  rfl

omit [Fintype π] in
theorem load_setUserLocks {n : Nat} :
    (s.setUserLocks p a n).load p b + (if b = a then s.userLocks p a else 0) = s.load p b + if b = a then n else 0 := by
  have holds : (s.setUserLocks p a n).callHolds p = s.callHolds p := rfl
  rw [load, load, holds, setUserLocks]
  simp only [Function.update_self]
  by_cases same : b = a
  · subst same
    rw [Function.update_self, if_pos rfl, if_pos rfl]
    omega
  · rw [Function.update_of_ne same, if_neg same, if_neg same]

theorem Locked.setUserLocks {n : Nat} {lent lent' : Addr → Nat} (locked : Locked live lent s)
    (others : ∀ b, b ≠ a → lent' b = lent b) (moves : live a → n + lent' a = s.userLocks p a + lent a) :
    Locked live lent' (s.setUserLocks p a n) := by
  refine ⟨locked.waits, locked.nodup, fun b isLive => ?_⟩
  have change := held_change (s := s) (t := s.setUserLocks p a n) (p := p) (a := b) fun q other => load_setUserLocks_of_ne other
  have own := load_setUserLocks (s := s) (p := p) (a := a) (b := b) (n := n)
  have total := locked.permits b isLive
  change (s.lock b).count + _ + _ = 1
  by_cases same : b = a
  · subst same
    have moved := moves isLive
    rw [if_pos rfl, if_pos rfl] at own
    omega
  · rw [if_neg same, if_neg same] at own
    rw [others b same]
    omega

/-! ## Taking and giving back -/

omit [DecidableEq π] [Fintype π] in
theorem release_empty {sem : Semaphore π} (none : sem.count = 0) (empty : sem.waiting = []) :
    sem.release 1 = ([], ⟨1, []⟩) := by rw [Semaphore.release, none, empty]; rfl

omit [DecidableEq π] [Fintype π] in
-- the permit goes to the front of the line
theorem release_cons {sem : Semaphore π} {rest : List (π × Nat)} (none : sem.count = 0) (front : sem.waiting = (q, 1) :: rest)
    (ones : ∀ r n, (r, n) ∈ rest → n = 1) : sem.release 1 = ([q], ⟨0, rest⟩) := by
  rw [Semaphore.release, none, front, Semaphore.serve, if_pos (by omega)]
  cases rest with
  | nil => rfl
  | cons next rest =>
      obtain ⟨r, n⟩ := next
      have : n = 1 := ones r n List.mem_cons_self
      rw [Semaphore.serve, if_neg (by omega)]

section
variable (locked : Locked live (fun b => if b = a then 1 else 0) s) (isLive : live a) (none : (s.lock a).count = 0)
include locked isLive none

theorem Locked.release_nobody (empty : (s.lock a).waiting = []) : Locked live (fun _ => 0) (s.release a) := by
  have freed := release_empty none empty
  have lock : (s.release a).lock a = ⟨1, []⟩ := by simp [FileLocks.release, setLock, freed]
  have kept : ∀ b, b ≠ a → (s.release a).lock b = s.lock b := fun b other => Function.update_of_ne other ..
  have phases : (s.release a).phase = s.phase := by
    funext q
    simp [FileLocks.release, freed]
  have loads : ∀ q b, (s.release a).load q b = s.load q b := fun q b => by
    rw [load, callHolds, phases, load, callHolds]
    rfl
  refine ⟨fun b isLive q n waiting => ?_, fun b isLive => ?_, fun b isLive => ?_⟩
  · by_cases same : b = a
    · rw [same, lock] at waiting
      cases waiting
    · rw [kept b same] at waiting
      rw [waitsFor, phases]
      exact locked.waits b isLive q n waiting
  · by_cases same : b = a
    · rw [same, lock]
      exact List.nodup_nil
    · rw [kept b same]
      exact locked.nodup b isLive
  · rw [held_congr fun q => loads q b]
    have before := locked.permits b isLive
    by_cases same : b = a
    · subst same
      rw [if_pos rfl] at before
      rw [lock]
      dsimp only
      omega
    · rw [kept b same]
      rwa [if_neg same] at before

theorem Locked.release_front {rest : List (π × Nat)} (front : (s.lock a).waiting = (q, 1) :: rest) :
    Locked live (fun _ => 0) (s.release a) := by
  have freed := release_cons none front fun r n member =>
    (locked.waits a isLive r n (by rw [front]; exact List.mem_cons_of_mem _ member)).1
  have lock : (s.release a).lock a = ⟨0, rest⟩ := by simp [FileLocks.release, setLock, freed]
  have kept : ∀ b, b ≠ a → (s.release a).lock b = s.lock b := fun b other => Function.update_of_ne other ..
  have self : (s.release a).phase q = (s.phase q).served := by simp [FileLocks.release, freed]
  have other : ∀ r, r ≠ q → (s.release a).phase r = s.phase r := fun r other => by simp [FileLocks.release, freed, other]
  obtain ⟨-, waited⟩ := locked.waits a isLive q 1 (by rw [front]; exact List.mem_cons_self)
  obtain ⟨fd, atFd, table⟩ := Option.bind_eq_some_iff.mp waited
  obtain ⟨before, after, -⟩ := LockPhase.waits_served atFd
  have nowHolds : (s.release a).callHolds q = some a := by
    rw [callHolds, self, after]
    exact table
  have heldNone : s.callHolds q = .none := by rw [callHolds, before, Option.bind_none]
  have gained : ∀ b, (s.release a).load q b = s.load q b + if b = a then 1 else 0 := fun b => by
    have same : (s.release a).userLocks q b = s.userLocks q b := rfl
    rw [load, nowHolds, load, heldNone, same, if_neg (by simp : ¬ Option.none = some b)]
    by_cases isA : b = a
    · rw [if_pos (by rw [isA]), if_pos isA]
      omega
    · rw [if_neg (by simpa using Ne.symm isA), if_neg isA, Nat.add_zero]
  have notTwice := locked.nodup a isLive
  rw [front, List.map_cons, List.nodup_cons] at notTwice
  -- who else waits is not the one served
  have apart : ∀ b, live b → ∀ r n, (r, n) ∈ ((s.release a).lock b).waiting → r ≠ q ∧ (r, n) ∈ (s.lock b).waiting := by
    intro b isLive r n waiting
    by_cases same : b = a
    · rw [same, lock] at waiting
      refine ⟨?_, by rw [same, front]; exact List.mem_cons_of_mem _ waiting⟩
      intro isQ
      exact notTwice.1 (List.mem_map.mpr ⟨_, waiting, isQ⟩)
    · rw [kept b same] at waiting
      refine ⟨?_, waiting⟩
      intro isQ
      have elsewhere := (locked.waits b isLive r n waiting).2
      rw [isQ, waited] at elsewhere
      exact same (Option.some.inj elsewhere).symm
  refine ⟨fun b isLive r n waiting => ?_, fun b isLive => ?_, fun b isLive => ?_⟩
  · obtain ⟨differ, old⟩ := apart b isLive r n waiting
    rw [waitsFor, other r differ]
    exact locked.waits b isLive r n old
  · by_cases same : b = a
    · rw [same, lock]
      exact notTwice.2
    · rw [kept b same]
      exact locked.nodup b isLive
  · have change := held_change (s := s) (t := s.release a) (p := q) (a := b) fun r differ => by
      rw [load, callHolds, other r differ, load, callHolds]
      rfl
    rw [gained b] at change
    have total := locked.permits b isLive
    by_cases same : b = a
    · subst same
      rw [if_pos rfl] at change total
      rw [lock]
      dsimp only
      omega
    · rw [if_neg same] at change total
      rw [kept b same]
      omega

end

theorem Locked.release (locked : Locked live (fun b => if b = a then 1 else 0) s) (isLive : live a) :
    Locked live (fun _ => 0) (s.release a) := by
  have permit := locked.permits a isLive
  rw [if_pos rfl] at permit
  have none : (s.lock a).count = 0 := by omega
  cases line : (s.lock a).waiting with
  | nil => exact locked.release_nobody isLive none line
  | cons next rest =>
      obtain ⟨q, n⟩ := next
      obtain rfl : n = 1 := (locked.waits a isLive q n (by rw [line]; exact List.mem_cons_self)).1
      exact locked.release_front isLive none line

section
variable (locked : Locked live (fun _ => 0) s) (table : s.files.table p fd = some a)
variable (free : (s.phase p).holds = none) (running : (s.phase p).waits = none)
include locked table free running

-- a permit leaves the count, and the process has it
theorem Locked.take (enough : (s.lock a).count ≥ 1) (goes : onward.holds = some fd) :
    Locked live (fun _ => 0) ((s.setLock a ⟨(s.lock a).count - 1, (s.lock a).waiting⟩).setPhase p onward) := by
  have lent : Locked live (fun b => if b = a then 1 else 0) (s.setLock a ⟨(s.lock a).count - 1, (s.lock a).waiting⟩) := by
    refine ⟨fun b isLive q n waiting => ?_, fun b isLive => ?_, fun b isLive => ?_⟩ <;> by_cases same : b = a
    · subst same
      simp only [setLock, Function.update_self] at waiting
      exact locked.waits b isLive q n waiting
    · simp only [setLock, Function.update_of_ne same] at waiting
      exact locked.waits b isLive q n waiting
    · subst same
      simp only [setLock, Function.update_self]
      exact locked.nodup b isLive
    · simp only [setLock, Function.update_of_ne same]
      exact locked.nodup b isLive
    · subst same
      have total := locked.permits b isLive
      change _ + s.held b + _ = 1
      simp only [setLock, Function.update_self, if_true]
      omega
    · change _ + s.held b + _ = 1
      simp only [setLock, Function.update_of_ne same, if_neg same]
      exact locked.permits b isLive
  refine lent.setPhase running fun b isLive => ?_
  have before : s.load p b = s.userLocks p b := by
    rw [load, callHolds, free, Option.bind_none, if_neg (by simp), Nat.zero_add]
  rw [load_setPhase, goes, Option.bind_some]
  change (if s.files.table p fd = some b then 1 else 0) + s.userLocks p b + 0 = s.load p b + _
  rw [before, table]
  simp only [Option.some.injEq, eq_comm (a := a)]
  omega

theorem Locked.standInLine (stands : line.waits = some fd) :
    Locked live (fun _ => 0) ((s.setLock a ⟨(s.lock a).count, (s.lock a).waiting ++ [(p, 1)]⟩).setPhase p line) := by
  have elsewhere : ∀ b, live b → ∀ q n, (q, n) ∈ (s.lock b).waiting → q ≠ p := by
    rintro b isLive q n waiting rfl
    have at_ := (locked.waits b isLive q n waiting).2
    rw [waitsFor, running] at at_
    cases at_
  have old : ∀ b, live b → ∀ q n, (q, n) ∈ (s.lock b).waiting →
      n = 1 ∧ ((s.setLock a ⟨(s.lock a).count, (s.lock a).waiting ++ [(p, 1)]⟩).setPhase p line).waitsFor q = some b := by
    intro b isLive q n waiting
    rw [waitsFor_setPhase_of_ne (elsewhere b isLive q n waiting)]
    exact locked.waits b isLive q n waiting
  have holdsNone : line.holds = none := (LockPhase.waits_served stands).1
  refine ⟨fun b isLive q n waiting => ?_, fun b isLive => ?_, fun b isLive => ?_⟩
  · by_cases same : b = a
    · subst same
      simp only [FileLocks.setPhase, setLock, Function.update_self, List.mem_append, List.mem_singleton] at waiting
      rcases waiting with waiting | new
      · exact old b isLive q n waiting
      · cases new
        refine ⟨rfl, ?_⟩
        simp only [waitsFor, FileLocks.setPhase, setLock, Function.update_self, stands, Option.bind_some, table]
    · simp only [FileLocks.setPhase, setLock, Function.update_of_ne same] at waiting
      exact old b isLive q n waiting
  · by_cases same : b = a
    · subst same
      simp only [FileLocks.setPhase, setLock, Function.update_self, List.map_append, List.map_cons, List.map_nil]
      refine List.nodup_append.mpr ⟨locked.nodup b isLive, List.nodup_singleton p, fun q member r isP => ?_⟩
      obtain ⟨⟨q', n⟩, waiting, rfl⟩ := List.mem_map.mp member
      rw [List.mem_singleton.mp isP]
      exact elsewhere b isLive q' n waiting
    · simp only [FileLocks.setPhase, setLock, Function.update_of_ne same]
      exact locked.nodup b isLive
  · have loads : ∀ q, ((s.setLock a ⟨(s.lock a).count, (s.lock a).waiting ++ [(p, 1)]⟩).setPhase p line).load q b =
        s.load q b := by
      intro q
      by_cases self : q = p
      · subst self
        rw [load_setPhase, holdsNone, load, callHolds, free]
        rfl
      · exact load_setPhase_of_ne self
    rw [held_congr loads]
    have total := locked.permits b isLive
    by_cases same : b = a
    · subst same
      simp only [FileLocks.setPhase, setLock, Function.update_self]
      exact total
    · simp only [FileLocks.setPhase, setLock, Function.update_of_ne same]
      exact total

theorem Locked.acquire {l : LockPhase} {o : LockPhase} (goes : o.holds = some fd) (stands : l.waits = some fd) :
    Locked live (fun _ => 0) (s.acquire a p o l) := by
  rw [FileLocks.acquire, Semaphore.acquire]
  by_cases enough : (s.lock a).count ≥ 1
  · rw [if_pos enough]
    exact locked.take table free running enough goes
  · rw [if_neg enough]
    exact locked.standInLine table free running stands

end

end FileLocks
end Kerosene.Vfs
