import Kerosene.Lib.Chain
import Mathlib.Logic.Function.Basic

/-!
# process_queue.c

Queues thread through the `queue_next` field of the processes themselves. A pointer is an
`Option Addr`; following a null one is a fault, `none`.
-/

namespace Kerosene.Sched
open Lib

abbrev Addr := Nat

inductive ProcessState where
  | ready
  | active
  | sleep
  | block

-- the arguments, the descriptor table and the stack address play no part in scheduling
structure Process where
  id : Int
  state : ProcessState
  aliveTicks : BitVec 64
  sleepTicks : BitVec 64
  pageDirectory : BitVec 32
  receivedExitCode : BitVec 32
  attachedFrom : Option Addr
  savedEsp : BitVec 32
  tssEsp0 : BitVec 32
  waitingForResourceCount : BitVec 32
  queueNext : Option Addr
  globalNext : Option Addr
  globalPrev : Option Addr

abbrev Heap := Addr → Process

structure ProcessQueue where
  top : Option Addr
  bottom : Option Addr
  size : Nat

def processQueueInit : ProcessQueue := ⟨none, none, 0⟩

namespace Heap

def setNext (h : Heap) (p : Addr) (next : Option Addr) : Heap :=
  Function.update h p { h p with queueNext := next }

def next (h : Heap) (p : Addr) : Option Addr := (h p).queueNext

/-- The processes from `first` on along `queue_next`. -/
def walk (h : Heap) : (fuel : Nat) → Option Addr → List Addr
  | fuel + 1, some p => p :: h.walk fuel (h.next p)
  | _, _ => []

end Heap

def processSortBySleepTicks (a b : Process) : Bool := a.sleepTicks < b.sleepTicks

def processQueuePush (h : Heap) (q : ProcessQueue) (p : Addr) : Option (Heap × ProcessQueue) :=
  let h := h.setNext p none
  match q.top with
  | none => some (h, ⟨some p, some p, q.size + 1⟩)
  | some top => q.bottom.map fun bottom => (h.setNext bottom (some p), ⟨some top, some p, q.size + 1⟩)

/-- `while(prev->queue_next && cmp(prev->queue_next, proc)) prev = prev->queue_next;` -/
def insertionPoint (h : Heap) (cmp : Process → Process → Bool) (p : Addr) : (fuel : Nat) → Addr → Option Addr
  | 0, _ => none
  | fuel + 1, prev => match h.next prev with
      | none => some prev
      | some next => if cmp (h next) (h p) then insertionPoint h cmp p fuel next else some prev

def processQueueSortedPush (h : Heap) (q : ProcessQueue) (p : Addr) (cmp : Process → Process → Bool) :
    Option (Heap × ProcessQueue) :=
  match q.top with
  | none => some (h.setNext p none, ⟨some p, some p, q.size + 1⟩)
  | some top =>
      if !cmp (h top) (h p) then some (h.setNext p (some top), ⟨some p, q.bottom, q.size + 1⟩)
      else do
        let prev ← insertionPoint h cmp p q.size top
        let bottom := if (h.next prev).isNone then some p else q.bottom
        return ((h.setNext p (h.next prev)).setNext prev (some p), ⟨some top, bottom, q.size + 1⟩)

-- a popped last element leaves `bottom` as it is
def processQueuePop (h : Heap) (q : ProcessQueue) : Option Addr × ProcessQueue :=
  match q.top with
  | none => (none, q)
  | some ret =>
      (some ret, ⟨if some ret = q.bottom then none else h.next ret, q.bottom, q.size - 1⟩)

/-! ## What a queue holds -/

structure Holds (h : Heap) (q : ProcessQueue) (l : List Addr) : Prop where
  seg : Seg h.next q.top l none
  bottom : ∀ last, l.getLast? = some last → q.bottom = some last
  size : q.size = l.length

/-- Only `queue_next` fields change, and only those of `touched`. -/
structure Relinks (h h' : Heap) (touched : List Addr) : Prop where
  fields : ∀ p, ∃ next, h' p = { h p with queueNext := next }
  same : ∀ p, p ∉ touched → h'.next p = h.next p

theorem next_setNext_self (h : Heap) (p : Addr) (next : Option Addr) : (h.setNext p next).next p = next := by
  simp [Heap.setNext, Heap.next]

theorem next_setNext_ne {p r : Addr} (other : r ≠ p) (h : Heap) (next : Option Addr) :
    (h.setNext p next).next r = h.next r := by
  simp [Heap.setNext, Heap.next, other]

theorem relinks_setNext {p : Addr} {touched : List Addr} (member : p ∈ touched) (h : Heap) (next : Option Addr) :
    Relinks h (h.setNext p next) touched := by
  refine ⟨fun r => ?_, fun r outside => next_setNext_ne (by rintro rfl; exact outside member) h next⟩
  by_cases same : r = p
  · exact ⟨next, by rw [same, Heap.setNext, Function.update_self]⟩
  · exact ⟨(h r).queueNext, by rw [Heap.setNext, Function.update_of_ne same]⟩

theorem Relinks.trans {h₁ h₂ h₃ : Heap} {touched : List Addr} (first : Relinks h₁ h₂ touched)
    (second : Relinks h₂ h₃ touched) : Relinks h₁ h₃ touched := by
  refine ⟨fun p => ?_, fun p outside => (second.same p outside).trans (first.same p outside)⟩
  obtain ⟨a, left⟩ := first.fields p
  obtain ⟨b, right⟩ := second.fields p
  exact ⟨b, by rw [right, left]⟩

theorem setNext_fields (h : Heap) (p : Addr) (link : Option Addr) (r : Addr) :
    ∃ next, h.setNext p link r = { h r with queueNext := next } :=
  (relinks_setNext (List.mem_singleton_self p) h link).fields r

theorem push_fields {h h' : Heap} {q q' : ProcessQueue} {p : Addr} (done : processQueuePush h q p = some (h', q'))
    (r : Addr) : ∃ next, h' r = { h r with queueNext := next } := by
  rw [processQueuePush] at done
  split at done
  · cases done
    exact setNext_fields h p none r
  · obtain ⟨bottom, _, same⟩ := Option.map_eq_some_iff.mp done
    cases same
    obtain ⟨first, left⟩ := setNext_fields h p none r
    obtain ⟨second, right⟩ := setNext_fields (h.setNext p none) bottom (some p) r
    exact ⟨second, by rw [right, left]⟩

theorem Relinks.holds {h h' : Heap} {touched l : List Addr} {q : ProcessQueue} (relinks : Relinks h h' touched)
    (apart : ∀ p ∈ l, p ∉ touched) (holds : Holds h q l) : Holds h' q l :=
  ⟨holds.seg.congr fun p member => relinks.same p (apart p member), holds.bottom, holds.size⟩

variable {h : Heap} {q : ProcessQueue} {l : List Addr} {p : Addr}

theorem walk_of_seg {first : Option Addr} (seg : Seg h.next first l none) : h.walk l.length first = l := by
  induction l generalizing first with
  | nil => rfl
  | cons b l ih =>
      obtain ⟨rfl, rest⟩ := seg
      rw [List.length_cons, Heap.walk, ih rest]

theorem Holds.walk (holds : Holds h q l) : h.walk q.size q.top = l := by
  rw [holds.size]
  exact walk_of_seg holds.seg

theorem Holds.push (holds : Holds h q l) (fresh : p ∉ l) :
    ∃ h' q', processQueuePush h q p = some (h', q') ∧ Holds h' q' (l ++ [p]) ∧ Relinks h h' (p :: l) := by
  rcases List.eq_nil_or_concat l with rfl | ⟨k, last, rfl⟩
  · have top : q.top = none := holds.seg
    refine ⟨h.setNext p none, ⟨some p, some p, q.size + 1⟩, by simp [processQueuePush, top], ⟨?_, ?_, ?_⟩,
      relinks_setNext (by simp) h none⟩
    · exact ⟨rfl, next_setNext_self h p none⟩
    · rintro last ⟨⟩
      rfl
    · simp [holds.size]
  · rw [List.concat_eq_append] at *
    have bottom := holds.bottom last (by simp)
    obtain ⟨first, top⟩ : ∃ first, q.top = some first := by
      have := holds.seg.head
      cases k <;> simp_all
    have notLast : last ≠ p := by
      rintro rfl
      simp at fresh
    have notFront : ∀ r ∈ k, r ≠ last ∧ r ≠ p := by
      intro r member
      refine ⟨?_, by rintro rfl; simp [member] at fresh⟩
      rintro rfl
      exact (List.nodup_append'.mp holds.seg.nodup).2.2 member (by simp)
    refine ⟨(h.setNext p none).setNext last (some p), ⟨some first, some p, q.size + 1⟩,
      by simp [processQueuePush, top, bottom], ⟨?_, ?_, ?_⟩, ?_⟩
    · refine seg_append.mpr ⟨some p, ?_, rfl, ?_⟩
      · rw [← top]
        refine holds.seg.relink (fun r member => ?_) (next_setNext_self _ _ _)
        rw [next_setNext_ne (notFront r member).1, next_setNext_ne (notFront r member).2]
      · rw [next_setNext_ne notLast.symm, next_setNext_self]
        rfl
    · intro r isLast
      simpa using isLast
    · simp [holds.size]
    · exact (relinks_setNext (by simp) h none).trans (relinks_setNext (by simp) _ (some p))

theorem Holds.pop (holds : Holds h q (p :: l)) :
    ∃ q', processQueuePop h q = (some p, q') ∧ Holds h q' l := by
  have top : q.top = some p := holds.seg.1
  refine ⟨_, by rw [processQueuePop, top], ?_, ?_, ?_⟩
  · have rest := holds.seg.2
    cases l with
    | nil =>
        rw [if_pos (holds.bottom p rfl).symm]
        rfl
    | cons b l =>
        obtain ⟨last, isLast⟩ : ∃ last, (b :: l).getLast? = some last := ⟨_, List.getLast?_eq_some_getLast (by simp)⟩
        have bottom := holds.bottom last (by rw [List.getLast?_cons_cons]; exact isLast)
        have other : p ≠ last := by
          rintro rfl
          exact (List.nodup_cons.mp holds.seg.nodup).1 (List.mem_of_getLast? isLast)
        rw [if_neg (by rw [bottom]; simpa using other)]
        exact rest
  · intro last isLast
    cases l with
    | nil => cases isLast
    | cons b l => exact holds.bottom last (by rw [List.getLast?_cons_cons]; exact isLast)
  · simp [holds.size]

theorem Holds.pop_nil (holds : Holds h q []) : processQueuePop h q = (none, q) := by
  have top : q.top = none := holds.seg
  rw [processQueuePop, top]

theorem insertionPoint_spec (cmp : Process → Process → Bool) {n : Nat} {prev : Addr}
    (seg : Seg h.next (some prev) (prev :: l) none) (enough : l.length < n) (first : cmp (h prev) (h p) = true) :
    ∃ front point back, insertionPoint h cmp p n prev = some point ∧ prev :: l = front ++ point :: back ∧
      (∀ r ∈ front ++ [point], cmp (h r) (h p) = true) ∧ ∀ r, back.head? = some r → cmp (h r) (h p) = false := by
  induction l generalizing prev n with
  | nil =>
      obtain ⟨n, rfl⟩ : ∃ k, n = k + 1 := ⟨n - 1, by simp at enough; omega⟩
      have ends : h.next prev = none := seg.2
      exact ⟨[], prev, [], by simp [insertionPoint, ends], rfl, by simpa using first, by simp⟩
  | cons b l ih =>
      obtain ⟨n, rfl⟩ : ∃ k, n = k + 1 := ⟨n - 1, by simp at enough; omega⟩
      have next : h.next prev = some b := seg.2.1
      by_cases before : cmp (h b) (h p) = true
      · have rest : Seg h.next (some b) (b :: l) none := next ▸ seg.2
        obtain ⟨front, point, back, found, split, smaller, larger⟩ := ih (n := n) rest
          (by simp only [List.length_cons] at enough; omega) before
        refine ⟨prev :: front, point, back, by simp [insertionPoint, next, before, found], by rw [split]; rfl, ?_, larger⟩
        intro r member
        rcases List.mem_cons.mp member with rfl | later
        · exact first
        · exact smaller r later
      · refine ⟨[], prev, b :: l, by simp [insertionPoint, next, before], rfl, by simpa using first, ?_⟩
        rintro r ⟨⟩
        exact Bool.eq_false_iff.mpr before

theorem Holds.sortedPush (holds : Holds h q l) (fresh : p ∉ l) (cmp : Process → Process → Bool) :
    ∃ h' q' front back, processQueueSortedPush h q p cmp = some (h', q') ∧ l = front ++ back ∧
      Holds h' q' (front ++ p :: back) ∧ Relinks h h' (p :: l) ∧ (∀ r ∈ front, cmp (h r) (h p) = true) ∧
      ∀ r, back.head? = some r → cmp (h r) (h p) = false := by
  cases l with
  | nil =>
      have top : q.top = none := holds.seg
      refine ⟨h.setNext p none, ⟨some p, some p, q.size + 1⟩, [], [], by simp [processQueueSortedPush, top], rfl,
        ⟨⟨rfl, next_setNext_self h p none⟩, ?_, ?_⟩, relinks_setNext (by simp) h none, by simp, by simp⟩
      · rintro last ⟨⟩
        rfl
      · simp [holds.size]
  | cons top l =>
      have start : q.top = some top := holds.seg.1
      have apart : ∀ r ∈ top :: l, r ≠ p := by
        rintro r member rfl
        exact fresh member
      by_cases front : cmp (h top) (h p) = true
      · -- the new process goes right behind `point`
        have seg : Seg h.next (some top) (top :: l) none := start ▸ holds.seg
        obtain ⟨before, point, after, found, split, smaller, larger⟩ := insertionPoint_spec (p := p) cmp seg
          (n := q.size) (by rw [holds.size]; simp) front
        rw [split] at seg apart
        have nodup := seg.nodup
        obtain ⟨left, right⟩ := seg.split
        have behind : h.next point = after.head? := right.head
        have notPoint : ∀ r, r ∈ before ∨ r ∈ after → r ≠ point := by
          intro r member
          have parts := List.nodup_append'.mp nodup
          rcases member with early | late
          · rintro rfl
            exact parts.2.2 early (by simp)
          · rintro rfl
            exact (List.nodup_cons.mp parts.2.1).1 late
        have pointNot : point ≠ p := apart point (by simp)
        refine ⟨(h.setNext p (h.next point)).setNext point (some p), _, before ++ [point], after,
          by simp only [processQueueSortedPush, start, front, found]; rfl, by rw [split]; simp, ⟨?_, ?_, ?_⟩, ?_,
          smaller, larger⟩
        · have link : ∀ r, r ∈ before ∨ r ∈ after →
              ((h.setNext p (h.next point)).setNext point (some p)).next r = h.next r := by
            intro r member
            rw [next_setNext_ne (notPoint r member),
              next_setNext_ne (apart r (by rcases member with m | m <;> simp [m]))]
          have first := left.relink (fun r member => link r (.inl member))
            (next_setNext_self (h.setNext p (h.next point)) point (some p))
          have middle : ((h.setNext p (h.next point)).setNext point (some p)).next p = h.next point := by
            rw [next_setNext_ne pointNot.symm, next_setNext_self]
          have last := right.congr fun r member => link r (.inr member)
          have tail : Seg ((h.setNext p (h.next point)).setNext point (some p)).next (some p) (p :: after) none := by
            refine ⟨rfl, ?_⟩
            rw [middle]
            exact last
          exact seg_append.mpr ⟨_, first, tail⟩
        · intro last isLast
          cases after with
          | nil =>
              have : h.next point = none := behind
              simp only [this, Option.isNone_none, if_true]
              simpa using isLast
          | cons b after =>
              have : h.next point = some b := behind
              simp only [this, Option.isNone_some]
              refine holds.bottom last ?_
              rw [split]
              simpa using isLast
        · have := congrArg List.length split
          simp only [List.length_cons, List.length_append] at this
          simp only [List.length_cons, List.length_append, holds.size, List.length_nil]
          omega
        · refine (relinks_setNext (by simp) h _).trans (relinks_setNext ?_ _ (some p))
          rw [split]
          simp
      · refine ⟨h.setNext p (some top), ⟨some p, q.bottom, q.size + 1⟩, [], top :: l,
          by simp [processQueueSortedPush, start, front], rfl, ⟨⟨rfl, ?_⟩, ?_, ?_⟩, relinks_setNext (by simp) h _,
          by simp, ?_⟩
        · rw [next_setNext_self, ← start]
          exact holds.seg.congr fun r member => next_setNext_ne (apart r member) h _
        · intro last isLast
          rw [List.nil_append, List.getLast?_cons_cons] at isLast
          exact holds.bottom last isLast
        · simp [holds.size]
        · rintro r ⟨⟩
          exact Bool.eq_false_iff.mpr front

end Kerosene.Sched
