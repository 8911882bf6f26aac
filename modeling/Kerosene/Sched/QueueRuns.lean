import Kerosene.Sched.Queue
import Kerosene.Lib.Machine
import Mathlib.Data.List.Sort

/-!
# Runs on one queue

A queue is for the list of the processes that wait. Next to the three operations a run has steps of
the rest of the kernel, which may do anything to the processes that are not in the queue.
-/

namespace Kerosene.Sched
open Lib

/-! ## The order of the sleeping processes -/

def Heap.NotAfter (h : Heap) (a b : Addr) : Prop := (h a).sleepTicks ≤ (h b).sleepTicks

section
variable {h h' : Heap} {l : List Addr} {p : Addr}

instance : DecidableRel h.NotAfter :=
  fun a b => inferInstanceAs (Decidable ((h a).sleepTicks ≤ (h b).sleepTicks))

instance : Std.Total h.NotAfter :=
  ⟨fun a b => BitVec.le_total (h a).sleepTicks (h b).sleepTicks⟩

instance : IsTrans Addr h.NotAfter :=
  ⟨fun _ _ _ first second => BitVec.le_trans first second⟩

theorem NotAfter.congr (same : ∀ r ∈ l, (h' r).sleepTicks = (h r).sleepTicks) (sorted : l.Pairwise h.NotAfter) :
    l.Pairwise h'.NotAfter := by
  refine sorted.imp_of_mem fun {a b} left right before => ?_
  rw [Heap.NotAfter, same a left, same b right]
  exact before

/-- The place of `p` is before the first process whose `sleep_ticks` is not smaller. -/
def Heap.insertSorted (h : Heap) (p : Addr) (l : List Addr) : List Addr :=
  l.takeWhile (fun r => (h r).sleepTicks < (h p).sleepTicks) ++ p ::
    l.dropWhile fun r => (h r).sleepTicks < (h p).sleepTicks

theorem insertSorted_eq_orderedInsert : h.insertSorted p l = l.orderedInsert h.NotAfter p := by
  rw [List.orderedInsert_eq_take_drop, Heap.insertSorted]
  simp only [Heap.NotAfter, BitVec.not_le]

theorem insertSorted_sorted (sorted : l.Pairwise h.NotAfter) : (h.insertSorted p l).Pairwise h.NotAfter := by
  rw [insertSorted_eq_orderedInsert]
  exact sorted.orderedInsert p l

end

/-! ## The operations -/

inductive QueueCall where
  | push (p : Addr)
  | sortedPush (p : Addr)
  | pop
  | elsewhere (heap : Heap)

namespace QueueCall

/-- What a call on the queue returns, if it is one that returns a process, and leaves behind. -/
def exec (h : Heap) (q : ProcessQueue) : QueueCall → Option (Option Addr × Heap × ProcessQueue)
  | push p => (processQueuePush h q p).map (none, ·)
  | sortedPush p => (processQueueSortedPush h q p processSortBySleepTicks).map (none, ·)
  | pop => some ((processQueuePop h q).1, h, (processQueuePop h q).2)
  | elsewhere heap => some (none, heap, q)

/-- The same on the list of the processes that wait. -/
def effect (h : Heap) (l : List Addr) : QueueCall → Option Addr × List Addr
  | push p => (none, l ++ [p])
  | sortedPush p => (none, h.insertSorted p l)
  | pop => (l.head?, l.tail)
  | elsewhere _ => (none, l)

/-- A process is pushed only while it does not wait here. -/
def Legal (h : Heap) (l : List Addr) : QueueCall → Prop
  | push p | sortedPush p => p ∉ l
  | pop => True
  | elsewhere heap => ∀ r ∈ l, heap r = h r

end QueueCall

section
variable {h : Heap} {q : ProcessQueue} {l : List Addr} {p : Addr}

theorem Relinks.sleepTicks {h' : Heap} {touched : List Addr} (relinks : Relinks h h' touched) (r : Addr) :
    (h' r).sleepTicks = (h r).sleepTicks := by
  obtain ⟨next, same⟩ := relinks.fields r
  rw [same]

theorem insertSorted_split {front back : List Addr}
    (smaller : ∀ r ∈ front, processSortBySleepTicks (h r) (h p) = true)
    (larger : ∀ r, back.head? = some r → processSortBySleepTicks (h r) (h p) = false) :
    h.insertSorted p (front ++ back) = front ++ p :: back := by
  have all : ∀ r ∈ front, decide ((h r).sleepTicks < (h p).sleepTicks) = true := smaller
  rw [Heap.insertSorted, List.takeWhile_append_of_pos all, List.dropWhile_append_of_pos all]
  cases back with
  | nil => simp
  | cons r back =>
      have first : decide ((h r).sleepTicks < (h p).sleepTicks) = false := larger r rfl
      rw [List.takeWhile_cons, List.dropWhile_cons, first]
      simp

theorem QueueCall.exec_spec (holds : Holds h q l) {call : QueueCall} (legal : call.Legal h l) :
    ∃ h' q', call.exec h q = some ((call.effect h l).1, h', q') ∧ Holds h' q' (call.effect h l).2 ∧
      ∀ r ∈ (call.effect h l).2, (h' r).sleepTicks = (h r).sleepTicks := by
  cases call with
  | push p =>
      obtain ⟨h', q', done, holds', relinks⟩ := holds.push legal
      exact ⟨h', q', by rw [exec, done]; rfl, holds', fun r _ => relinks.sleepTicks r⟩
  | sortedPush p =>
      obtain ⟨h', q', front, back, done, rfl, holds', relinks, smaller, larger⟩ :=
        holds.sortedPush legal processSortBySleepTicks
      refine ⟨h', q', by rw [exec, done]; rfl, ?_, fun r _ => relinks.sleepTicks r⟩
      rw [effect, insertSorted_split smaller larger]
      exact holds'
  | pop =>
      cases l with
      | nil => exact ⟨h, q, by rw [exec, holds.pop_nil]; rfl, holds, fun _ _ => rfl⟩
      | cons p l =>
          obtain ⟨q', done, holds'⟩ := holds.pop
          exact ⟨h, q', by rw [exec, done]; rfl, holds', fun _ _ => rfl⟩
  | elsewhere heap =>
      refine ⟨heap, q, rfl, ⟨holds.seg.congr fun r member => ?_, holds.bottom, holds.size⟩, fun r member => ?_⟩
      · rw [Heap.next, legal r member, Heap.next]
      · rw [legal r member]

theorem Holds.empty_iff (holds : Holds h q l) : l = [] ↔ q.top = none := by
  rw [holds.seg.head, List.head?_eq_none_iff]

theorem Holds.last (holds : Holds h q l) {r : Addr} (isLast : l.getLast? = some r) :
    q.bottom = some r ∧ h.next r = none := by
  refine ⟨holds.bottom r isLast, ?_⟩
  obtain ⟨front, rfl⟩ := List.getLast?_eq_some_iff.mp isLast
  obtain ⟨middle, -, here⟩ := seg_append.mp holds.seg
  exact here.2

end

/-! ## Runs -/

structure Queued where
  heap : Heap
  queue : ProcessQueue
  waiting : List Addr

/-- The calls on the queue and on its list side by side. -/
def queueing : Machine Queued QueueCall where
  Legal s call := call.Legal s.heap s.waiting
  step s call := (call.exec s.heap s.queue).map fun (_, h, q) => ⟨h, q, (call.effect s.heap s.waiting).2⟩

theorem queueing_step {s : Queued} (holds : Holds s.heap s.queue s.waiting) {call : QueueCall}
    (legal : queueing.Legal s call) :
    ∃ h' q', call.exec s.heap s.queue = some ((call.effect s.heap s.waiting).1, h', q') ∧
      queueing.step s call = some ⟨h', q', (call.effect s.heap s.waiting).2⟩ ∧
      Holds h' q' (call.effect s.heap s.waiting).2 ∧
      ∀ r ∈ (call.effect s.heap s.waiting).2, (h' r).sleepTicks = (s.heap r).sleepTicks := by
  obtain ⟨h', q', done, holds', ticks⟩ := QueueCall.exec_spec holds legal
  exact ⟨h', q', done, congrArg (Option.map _) done, holds', ticks⟩

theorem queueing_run {heap : Heap} {calls : List QueueCall} {s : Queued}
    (run : queueing.Runs ⟨heap, processQueueInit, []⟩ calls s) : Holds s.heap s.queue s.waiting := by
  induction run with
  | start =>
      refine ⟨rfl, fun last isLast => ?_, rfl⟩
      cases isLast
  | snoc _ legal step ih =>
      obtain ⟨h', q', -, done, holds, -⟩ := queueing_step ih legal
      rw [done] at step
      cases step
      exact holds

theorem effect_sorted {h : Heap} {l : List Addr} (sorted : l.Pairwise h.NotAfter) {call : QueueCall}
    (other : ∀ p, call ≠ .push p) : (call.effect h l).2.Pairwise h.NotAfter := by
  cases call with
  | push p => exact absurd rfl (other p)
  | sortedPush p => exact insertSorted_sorted sorted
  | pop => exact sorted.sublist (List.tail_sublist l)
  | elsewhere heap => exact sorted

theorem queueing_sorted {heap : Heap} {calls : List QueueCall} {s : Queued}
    (run : queueing.Runs ⟨heap, processQueueInit, []⟩ calls s) (sortedOnly : ∀ p, .push p ∉ calls) :
    s.waiting.Pairwise s.heap.NotAfter := by
  induction run with
  | start => exact List.Pairwise.nil
  | snoc earlier legal step ih =>
      obtain ⟨h', q', -, done, -, ticks⟩ := queueing_step (queueing_run earlier) legal
      rw [done] at step
      cases step
      have sorted := ih fun p member => sortedOnly p (List.mem_append_left _ member)
      refine NotAfter.congr ticks (effect_sorted sorted fun p same => sortedOnly p ?_)
      rw [same]
      exact List.mem_append_right _ (List.mem_singleton_self _)

/-- Over every run that pushes no process which already waits, the queue is the list. -/
theorem queue_refines_list {heap : Heap} {calls : List QueueCall} {s : Queued}
    (run : queueing.Runs ⟨heap, processQueueInit, []⟩ calls s) :
    Seg s.heap.next s.queue.top s.waiting none ∧ (s.waiting = [] ↔ s.queue.top = none) ∧
    (∀ last, s.waiting.getLast? = some last → s.queue.bottom = some last ∧ s.heap.next last = none) ∧
    s.queue.size = s.waiting.length ∧
    (∀ call, queueing.Legal s call → ∃ h' q',
      call.exec s.heap s.queue = some ((call.effect s.heap s.waiting).1, h', q') ∧
      queueing.step s call = some ⟨h', q', (call.effect s.heap s.waiting).2⟩) ∧
    ((∀ p, .push p ∉ calls) → s.waiting.Pairwise fun a b => (s.heap a).sleepTicks ≤ (s.heap b).sleepTicks) := by
  have holds := queueing_run run
  refine ⟨holds.seg, holds.empty_iff, fun _ => holds.last, holds.size, fun call legal => ?_, queueing_sorted run⟩
  obtain ⟨h', q', done, step, -⟩ := queueing_step holds legal
  exact ⟨h', q', done, step⟩

/-- Every process sleeps until the tick of its own number. -/
def numberedSleepers : Heap :=
  fun p => ⟨p, .sleep, 0, BitVec.ofNat 64 p, 0, 0, none, 0, 0, 0, none, none, none⟩

theorem queue_refines_list_three_sleepers :
    ∃ s, queueing.Runs ⟨numberedSleepers, processQueueInit, []⟩ [.sortedPush 5, .sortedPush 3, .sortedPush 4, .pop] s ∧
      s.waiting = [4, 5] ∧ s.queue.bottom = some 5 ∧ s.heap.next 5 = none := by
  have pushed₅ : queueing.Runs ⟨numberedSleepers, processQueueInit, []⟩ ([] ++ [.sortedPush 5]) _ :=
    Machine.Runs.start.snoc (show 5 ∉ [] by decide) rfl
  have pushed₃ : queueing.Runs _ ([.sortedPush 5] ++ [.sortedPush 3]) _ := pushed₅.snoc (show 3 ∉ [5] by decide) rfl
  have pushed₄ : queueing.Runs _ ([.sortedPush 5, .sortedPush 3] ++ [.sortedPush 4]) _ :=
    pushed₃.snoc (show 4 ∉ [3, 5] by decide) rfl
  have popped : queueing.Runs _ ([.sortedPush 5, .sortedPush 3, .sortedPush 4] ++ [.pop]) _ := pushed₄.snoc trivial rfl
  exact ⟨_, popped, rfl, (queue_refines_list popped).2.2.1 5 rfl⟩

end Kerosene.Sched
