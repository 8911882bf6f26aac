import Kerosene.Mem.HeapFree
import Kerosene.Mem.HeapSearch

/-!
# Coalescing

A freed block and the free regions beside it become one region.
-/

namespace Kerosene.Mem
open Lib

variable {l front back : List Region} {q r : Region} {a b c x : Nat}

-- by address
def usedRegions (a : Nat) (l : List Region) : List (Nat × Region) := (layout a l).filter fun r => r.2.used

theorem usedRegions_append : usedRegions a (front ++ back) = usedRegions a front ++ usedRegions (endOf a front) back := by
  rw [usedRegions, layout_append, List.filter_append]
  rfl

@[simp] theorem usedRegions_cons : usedRegions a (r :: l) =
    if r.used = true then (a, r) :: usedRegions (a + 12 + r.size) l else usedRegions (a + 12 + r.size) l := by
  rw [usedRegions, layout_cons, List.filter_cons]
  rfl

theorem usedRegions_free (free : ∀ r ∈ l, r.used = false) : usedRegions a l = [] := by
  refine List.filter_eq_nil_iff.mpr fun r member => ?_
  rw [free _ (Heap.mem_of_layout member)]
  decide

namespace Hole
variable {g : Hole}

/-- The free regions that join the hole, in front of it and behind it. -/
structure Absorbs (g g' : Hole) (before after : List Region) : Prop where
  front : g.front = g'.front ++ before
  back : g.back = after ++ g'.back
  free : ∀ r ∈ before ++ after, r.used = false
  size : ∀ a u, endOf a (before ++ ⟨g.size, u⟩ :: after) = a + 12 + g'.size

theorem absorbs_joinNext (g : Hole) : ∃ after, Absorbs g g.joinNext [] after := by
  obtain ⟨front, size, back⟩ := g
  match back with
  | [] => exact ⟨[], by simp [joinNext], rfl, by simp, fun _ _ => rfl⟩
  | ⟨s, true⟩ :: back => exact ⟨[], by simp [joinNext], rfl, by simp, fun _ _ => rfl⟩
  | ⟨s, false⟩ :: back =>
      refine ⟨[⟨s, false⟩], by simp [joinNext], rfl, by simp, fun a u => ?_⟩
      simp only [joinNext, List.nil_append, endOf_cons, endOf_nil]
      omega

theorem absorbs_joinPrev (g : Hole) : ∃ before, Absorbs g g.joinPrev before [] := by
  rcases List.eq_nil_or_concat g.front with none | ⟨front, ⟨s, used⟩, last⟩
  · rw [joinPrev_of_nil none]
    exact ⟨[], by simp, rfl, by simp, fun _ _ => rfl⟩
  rw [List.concat_eq_append] at last
  cases used with
  | true =>
      rw [joinPrev_of_used last]
      exact ⟨[], by simp, rfl, by simp, fun _ _ => rfl⟩
  | false =>
      rw [joinPrev_of_free last]
      refine ⟨[⟨s, false⟩], last, rfl, by simp, fun a u => ?_⟩
      simp only [List.singleton_append, endOf_cons, endOf_nil]
      omega

theorem absorbs_joined (g : Hole) : ∃ before after, Absorbs g g.joined before after := by
  obtain ⟨after, next⟩ := g.absorbs_joinNext
  obtain ⟨before, prev⟩ := g.joinNext.absorbs_joinPrev
  refine ⟨before, after, ?_, ?_, ?_, fun a u => ?_⟩
  · rw [next.front, prev.front, List.append_nil]
    rfl
  · rw [next.back, prev.back]
    rfl
  · intro r member
    rcases List.mem_append.mp member with inFront | inBack
    · exact prev.free r (by simpa using inFront)
    · exact next.free r (by simpa using inBack)
  · have whole := prev.size a u
    have part := next.size (endOf a before) u
    simp only [endOf_append, endOf_cons, endOf_nil, List.nil_append] at whole part ⊢
    rw [part, whole]
    rfl

theorem noAdjacentFree_joined (apart : NoAdjacentFree (front ++ ⟨x, true⟩ :: back)) :
    NoAdjacentFree (Hole.mk front x back).joined.regions := by
  obtain ⟨frontApart, backApart, -, -⟩ := noAdjacentFree_append_cons.mp apart
  have next : NoAdjacentFree (Hole.mk front x back).joinNext.back ∧
      ∀ q ∈ (Hole.mk front x back).joinNext.back.head?, q.used = true := by
    match back with
    | [] => exact ⟨backApart, by simp [joinNext]⟩
    | ⟨s, true⟩ :: back => exact ⟨backApart, by simp [joinNext]⟩
    | ⟨s, false⟩ :: back =>
        obtain ⟨head, rest⟩ := List.isChain_cons.mp backApart
        exact ⟨rest, fun q member => (head q member).resolve_left (by simp)⟩
  have same := joinNext_front ⟨front, x, back⟩
  rw [joined]
  generalize (Hole.mk front x back).joinNext = g at *
  dsimp only at same
  subst same
  have prev : NoAdjacentFree g.joinPrev.front ∧ ∀ p ∈ g.joinPrev.front.getLast?, p.used = true := by
    rcases List.eq_nil_or_concat g.front with none | ⟨front, ⟨s, used⟩, last⟩
    · rw [joinPrev_of_nil none, none]
      exact ⟨List.isChain_nil, by simp⟩
    rw [List.concat_eq_append] at last
    cases used with
    | true =>
        rw [joinPrev_of_used last]
        exact ⟨frontApart, by simp [last]⟩
    | false =>
        rw [joinPrev_of_free last]
        rw [last] at frontApart
        obtain ⟨apart, -, side, -⟩ := noAdjacentFree_append_cons.mp frontApart
        exact ⟨apart, fun p member => (side p member).resolve_right (by simp)⟩
  have sameBack : g.joinPrev.back = g.back := by
    rcases List.eq_nil_or_concat g.front with none | ⟨front, ⟨s, used⟩, last⟩
    · rw [joinPrev_of_nil none]
    · rw [List.concat_eq_append] at last
      cases used with
      | true => rw [joinPrev_of_used last]
      | false => rw [joinPrev_of_free last]
  rw [regions, sameBack]
  exact noAdjacentFree_append_cons.mpr ⟨prev.1, next.1, fun p member => .inl (prev.2 p member), fun q member => .inr (next.2 q member)⟩

end Hole

namespace Heap
variable {h h' : Heap} {g : Hole}

/-! ## No page is taken -/

theorem WellFormed.shrink_kept (wf : h.WellFormed g.regions)
    (kept : endOf h.firstHeader g.front + headerSize + g.size < h.end_ ∨ h.end_ - h.heap = h.minSize) :
    h.shrink (endOf h.firstHeader g.front) = some (h, []) := by
  have header := wf.headerAt
  have small := wf.small
  obtain ⟨low, high⟩ := wf.bounds
  dsimp only at high
  rw [shrink, header.next, Option.bind_eq_bind, Option.bind_some]
  by_cases inner : endOf h.firstHeader g.front + 12 + g.size < h.end_
  · exact if_neg (by dsimp only; omega)
  have minimal := kept.resolve_left (by rw [headerSize]; exact inner)
  have order : h.heap ≤ h.end_ := by
    have : h.heap ≤ h.firstHeader := Nat.le_add_right _ _
    omega
  have none : h.contractBy g.size = 0 := by
    have bound := contractBy_le (r := g.size) order small minimal.ge
    have page : 0 < pageSize := by decide
    refine (Nat.mul_eq_zero.mp ?_).resolve_right page.ne'
    omega
  rw [if_pos (by dsimp only; omega), header.size, Option.bind_some]
  rw [contractBy] at none
  dsimp only at none ⊢
  split_ifs at none ⊢
  · obtain ⟨-, -, size, -⟩ := tiles_append.mp wf.tiles
    have same : u32Sub g.size (u32 (0 * pageSize)) = h.memory.word (endOf h.firstHeader g.front + 4) := by
      have zero : u32 (0 * pageSize) = 0 := by rw [Nat.zero_mul]; rfl
      rw [zero, size, u32Sub_of_le (by omega) (Nat.zero_le _)]
      rfl
    rw [heapContract, none, header.size, Option.bind_eq_bind, Option.bind_some, same, setSize, store_eq wf.mapped (by omega) (by omega),
      Bytes.setWord_word]
    rfl
  · rfl

/-! ## `heap_free` -/

/-- The block behind `front` is freed: the other regions in use stay, and the hole that it leaves is one region. -/
def Coalesces (h : Heap) (front : List Region) (x : Nat) (back : List Region) : Prop :=
  ∃ h' pre before size after post, h.heapFree (endOf h.firstHeader front + headerSize) = some (h', []) ∧
    h'.heap = h.heap ∧ h'.end_ = h.end_ ∧
    h'.WellFormed (pre ++ ⟨size, false⟩ :: post) ∧ NoAdjacentFree (pre ++ ⟨size, false⟩ :: post) ∧
    usedRegions h'.firstHeader (pre ++ ⟨size, false⟩ :: post) =
      (usedRegions h.firstHeader (front ++ ⟨x, true⟩ :: back)).erase (endOf h.firstHeader front, ⟨x, true⟩) ∧
    front = pre ++ before ∧ back = after ++ post ∧ (∀ r ∈ before ++ after, r.used = false) ∧
    endOf h.firstHeader (pre ++ before ++ ⟨x, true⟩ :: after) = endOf h.firstHeader pre + headerSize + size

theorem usedRegions_absorbs {g' : Hole} {before after : List Region} (absorbs : Hole.Absorbs ⟨front, x, back⟩ g' before after) :
    usedRegions a g'.regions = (usedRegions a (front ++ ⟨x, true⟩ :: back)).erase (endOf a front, ⟨x, true⟩) := by
  obtain ⟨rfl, rfl, free, size⟩ := absorbs
  have before₀ : usedRegions (endOf a g'.front) before = [] := usedRegions_free fun r member => free r (List.mem_append_left _ member)
  have after₀ (b : Nat) : usedRegions b after = [] := usedRegions_free fun r member => free r (List.mem_append_right _ member)
  have notFront : (endOf a (g'.front ++ before), (⟨x, true⟩ : Region)) ∉ usedRegions a g'.front := by
    intro member
    have inside := (layout_bounds (List.mem_of_mem_filter member)).2
    have := le_endOf (endOf a g'.front) before
    rw [endOf_append] at inside
    omega
  have here := size (endOf a g'.front) true
  simp only [endOf_append, endOf_cons] at here
  simp only [Hole.regions, usedRegions_append, usedRegions_cons, before₀, after₀, endOf_append, List.append_nil, List.nil_append,
    Bool.false_eq_true, if_false, if_true, here] at notFront ⊢
  rw [List.erase_append_right _ notFront, List.erase_cons_head]

theorem WellFormed.coalesces (wf : h.WellFormed (front ++ ⟨x, true⟩ :: back)) (apart : NoAdjacentFree (front ++ ⟨x, true⟩ :: back))
    (kept : endOf h.firstHeader (Hole.mk front x back).joined.front + headerSize + (Hole.mk front x back).joined.size < h.end_ ∨
      h.end_ - h.heap = h.minSize) : h.Coalesces front x back := by
  obtain ⟨m, done, wf', -⟩ := wf.heapFree
  have shrunk := wf'.shrink_kept kept
  obtain ⟨before, after, absorbs⟩ := (Hole.mk front x back).absorbs_joined
  have whole := absorbs.size (endOf h.firstHeader (Hole.mk front x back).joined.front) true
  refine ⟨h.withMemory m, _, before, _, after, _, done.trans shrunk, rfl, rfl, wf', Hole.noAdjacentFree_joined apart,
    usedRegions_absorbs absorbs, absorbs.front, absorbs.back, absorbs.free, ?_⟩
  rwa [List.append_assoc, endOf_append]

theorem heapFree_other {addr : Nat} (other : h.magic (u32Sub addr headerSize) ≠ some heapUsedMagic) :
    h.heapFree addr = (h.magic (u32Sub addr headerSize)).map fun _ => (h, []) := by
  cases read : h.magic (u32Sub addr headerSize) with
  | none => simp [Heap.heapFree, read]
  | some v =>
      have notUsed : v ≠ heapUsedMagic := fun same => other (by rw [read, same])
      simp [Heap.heapFree, read, notUsed]

/-- A block in use becomes one hole with the free regions beside it, as long as no page is taken from the heap. Another
address changes nothing. -/
theorem heapFree_coalesces (wf : h.WellFormed l) (apart : NoAdjacentFree l) :
    (∀ front x back, l = front ++ ⟨x, true⟩ :: back →
      (endOf h.firstHeader (Hole.mk front x back).joined.front + headerSize + (Hole.mk front x back).joined.size < h.end_ ∨
        h.end_ - h.heap = h.minSize) → h.Coalesces front x back) ∧
    ∀ addr, h.magic (u32Sub addr headerSize) ≠ some heapUsedMagic →
      h.heapFree addr = (h.magic (u32Sub addr headerSize)).map fun _ => (h, []) := by
  refine ⟨?_, fun addr other => heapFree_other other⟩
  rintro front x back rfl kept
  exact wf.coalesces apart kept

-- the block lies between two free regions
theorem heapFree_coalesces_one_page :
    (onePageOf [⟨50, false⟩, ⟨100, true⟩, ⟨60, false⟩, ⟨3824, true⟩]).Coalesces [⟨50, false⟩] 100 [⟨60, false⟩, ⟨3824, true⟩] :=
  (heapFree_coalesces (onePageOf_wellFormed rfl) (by simp [NoAdjacentFree])).1 [⟨50, false⟩] 100 [⟨60, false⟩, ⟨3824, true⟩]
    rfl (.inl (by decide))

end Heap
end Kerosene.Mem
