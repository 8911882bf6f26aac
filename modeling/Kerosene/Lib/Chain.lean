import Mathlib.Data.List.Basic
import Mathlib.Data.List.Nodup

/-!
# Linked lists in a heap

`next` gives the link field of every cell. `Seg next first l rest` says that following the links
from `first` visits the cells `l` in order and arrives at `rest`; a whole list arrives at `none`.
-/

namespace Kerosene.Lib
variable {α : Type*} {next next' : α → Option α} {first rest : Option α} {l : List α} {a : α}

def Seg (next : α → Option α) : Option α → List α → Option α → Prop
  | first, [], rest => first = rest
  | first, a :: l, rest => first = some a ∧ Seg next (next a) l rest

@[simp] theorem seg_nil : Seg next first [] rest ↔ first = rest := Iff.rfl

@[simp] theorem seg_cons : Seg next first (a :: l) rest ↔ first = some a ∧ Seg next (next a) l rest := Iff.rfl

theorem seg_append {left right : List α} :
    Seg next first (left ++ right) rest ↔ ∃ middle, Seg next first left middle ∧ Seg next middle right rest := by
  induction left generalizing first with
  | nil => simp
  | cons a left ih => simp [ih, and_assoc]

theorem Seg.congr (seg : Seg next first l rest) (same : ∀ a ∈ l, next' a = next a) :
    Seg next' first l rest := by
  induction l generalizing first with
  | nil => exact seg
  | cons a l ih =>
      refine ⟨seg.1, ?_⟩
      rw [same a List.mem_cons_self]
      exact ih seg.2 fun b member => same b (List.mem_cons_of_mem a member)

theorem Seg.head (seg : Seg next first l none) : first = l.head? := by
  cases l with
  | nil => exact seg
  | cons a l => exact seg.1

theorem Seg.first_mem (seg : Seg next (some a) l none) : a ∈ l := List.mem_of_mem_head? seg.head.symm

theorem Seg.unique {l' : List α} (seg : Seg next first l none) (seg' : Seg next first l' none) : l = l' := by
  induction l generalizing first l' with
  | nil =>
      cases l' with
      | nil => rfl
      | cons a l' =>
          have : first = none := seg
          rw [this] at seg'
          cases seg'.1
  | cons a l ih =>
      cases l' with
      | nil =>
          have : first = none := seg'
          rw [this] at seg
          cases seg.1
      | cons b l' =>
          have same : some a = some b := seg.1.symm.trans seg'.1
          cases same
          rw [ih seg.2 seg'.2]

/-- A list that ends meets no cell twice: the rest of the list from a cell depends on the cell only. -/
theorem Seg.nodup (seg : Seg next first l none) : l.Nodup := by
  induction l generalizing first with
  | nil => exact List.nodup_nil
  | cons a l ih =>
      refine List.nodup_cons.mpr ⟨fun again => ?_, ih seg.2⟩
      obtain ⟨left, right, rfl⟩ := List.append_of_mem again
      obtain ⟨middle, _, back⟩ := seg_append.mp seg.2
      have loop : right = left ++ a :: right := Seg.unique back.2 seg.2
      have := congrArg List.length loop
      simp at this
      omega

theorem Seg.next_getElem? {i : Nat} (seg : Seg next first l none) (here : l[i]? = some a) : next a = l[i + 1]? := by
  induction l generalizing first i with
  | nil => simp at here
  | cons b l ih =>
      cases i with
      | zero =>
          cases here
          rw [seg.2.head, List.head?_eq_getElem?]
          rfl
      | succ i => exact ih seg.2 here

theorem Seg.getElem?_congr {l' : List α} {i : Nat} (seg : Seg next first l none) (seg' : Seg next' first l' none)
    (same : ∀ a ∈ l.take i, next' a = next a) : l'[i]? = l[i]? := by
  induction i generalizing first l l' with
  | zero => rw [← List.head?_eq_getElem?, ← List.head?_eq_getElem?, ← seg.head, ← seg'.head]
  | succ i ih =>
      cases l with
      | nil =>
          have ends : first = none := seg
          rw [ends] at seg'
          cases l' with
          | nil => rfl
          | cons a l' => cases seg'.1
      | cons a l =>
          cases l' with
          | nil => cases seg.1.symm.trans (show first = none from seg')
          | cons b l' =>
              have sameHead : some a = some b := seg.1.symm.trans seg'.1
              cases sameHead
              have link := same a (by simp)
              rw [List.getElem?_cons_succ, List.getElem?_cons_succ]
              have rest := seg'.2
              rw [link] at rest
              exact ih seg.2 rest fun c member => same c (by simp [member])

theorem Seg.relink {last : Option α} (seg : Seg next first (l ++ [a]) rest) (same : ∀ b ∈ l, next' b = next b)
    (link : next' a = last) : Seg next' first (l ++ [a]) last := by
  obtain ⟨middle, left, right⟩ := seg_append.mp seg
  exact seg_append.mpr ⟨middle, left.congr same, right.1, link⟩

theorem Seg.split {right : List α} (seg : Seg next first (l ++ a :: right) none) :
    Seg next first (l ++ [a]) (next a) ∧ Seg next (next a) right none := by
  obtain ⟨middle, left, start, after⟩ := seg_append.mp seg
  exact ⟨seg_append.mpr ⟨middle, left, start, rfl⟩, after⟩

/-! ## Links back -/

/-- The back links of `l`, when `before` comes right before it. -/
def Back (prev : α → Option α) : Option α → List α → Prop
  | _, [] => True
  | before, a :: l => prev a = before ∧ Back prev (some a) l

variable {prev prev' : α → Option α} {before : Option α}

theorem Back.congr (back : Back prev before l) (same : ∀ a ∈ l, prev' a = prev a) : Back prev' before l := by
  induction l generalizing before with
  | nil => trivial
  | cons a l ih =>
      refine ⟨?_, ih back.2 fun b member => same b (List.mem_cons_of_mem a member)⟩
      rw [same a List.mem_cons_self]
      exact back.1

theorem back_append {left right : List α} :
    Back prev before (left ++ right) ↔ Back prev before left ∧ Back prev (left.getLast?.or before) right := by
  induction left generalizing before with
  | nil => simp [Back]
  | cons a left ih =>
      have last : (a :: left).getLast?.or before = left.getLast?.or (some a) := by
        rw [List.getLast?_cons]
        cases left.getLast? <;> rfl
      rw [List.cons_append, Back, ih, last]
      simp only [Back, and_assoc]

structure DoublyLinked (next prev : α → Option α) (l : List α) : Prop where
  forth : Seg next l.head? l none
  back : Back prev none l

section DoublyLinked
variable (linked : DoublyLinked next prev l) {b : α}
include linked

theorem DoublyLinked.push (last : l.getLast? = some b) (link : next' b = some a) (ends : next' a = none)
    (back : prev' a = some b) (sameNext : ∀ c ∈ l, c ≠ b → next' c = next c)
    (samePrev : ∀ c ∈ l, prev' c = prev c) : DoublyLinked next' prev' (l ++ [a]) := by
  obtain ⟨front, rfl⟩ : ∃ front, l = front ++ [b] := ⟨_, (List.dropLast_append_getLast? b last).symm⟩
  have nodup := List.nodup_append'.mp linked.forth.nodup
  have heads : (front ++ [b] ++ [a]).head? = (front ++ [b]).head? := by
    cases front <;> rfl
  refine ⟨?_, back_append.mpr ⟨linked.back.congr samePrev, ?_, trivial⟩⟩
  · rw [heads]
    refine seg_append.mpr ⟨_, linked.forth.relink (fun c member => sameNext c (by simp [member]) ?_) link, rfl, ends⟩
    rintro rfl
    exact nodup.2.2 member (by simp)
  · rw [last]
    exact back

theorem DoublyLinked.remove {front rest : List α} (split : l = front ++ a :: rest) (last : front.getLast? = some b)
    (link : next' b = next a) (back : ∀ c, rest.head? = some c → prev' c = some b)
    (sameNext : ∀ c ∈ front ++ rest, c ≠ b → next' c = next c)
    (samePrev : ∀ c ∈ front ++ rest, rest.head? ≠ some c → prev' c = prev c) :
    DoublyLinked next' prev' (front ++ rest) := by
  subst split
  have nodup := List.nodup_append'.mp linked.forth.nodup
  have nodupRest := List.nodup_cons.mp nodup.2.1
  obtain ⟨init, rfl⟩ : ∃ init, front = init ++ [b] := ⟨_, (List.dropLast_append_getLast? b last).symm⟩
  have nodupInit := List.nodup_append'.mp nodup.1
  have heads : (init ++ [b] ++ rest).head? = (init ++ [b] ++ a :: rest).head? := by
    cases init <;> rfl
  have backs := back_append.mp linked.back
  refine ⟨?_, back_append.mpr ⟨backs.1.congr fun c member => ?_, ?_⟩⟩
  · obtain ⟨middle, left, right⟩ := seg_append.mp linked.forth
    rw [heads]
    refine seg_append.mpr ⟨next a, left.relink (fun c member => ?_) link, right.2.congr fun c member => ?_⟩
    · refine sameNext c (by simp [member]) ?_
      rintro rfl
      exact nodupInit.2.2 member (by simp)
    · refine sameNext c (by simp [member]) ?_
      rintro rfl
      exact nodup.2.2 (by simp) (List.mem_cons_of_mem a member)
  · refine samePrev c (by simp at member ⊢; grind) fun first => ?_
    exact nodup.2.2 member (List.mem_cons_of_mem a (List.mem_of_mem_head? first))
  · rw [last]
    cases rest with
    | nil => trivial
    | cons c rest =>
        refine ⟨back c rfl, backs.2.2.2.congr fun d member => ?_⟩
        refine samePrev d (by simp [member]) fun first => ?_
        cases first
        exact (List.nodup_cons.mp nodupRest.2).1 member

end DoublyLinked
end Kerosene.Lib
