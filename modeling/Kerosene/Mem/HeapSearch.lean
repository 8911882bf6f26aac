import Mathlib.Data.List.Chain
import Kerosene.Mem.HeapGrowth

/-!
# First fit

`heap_alloc` takes its block from the first free region that has room for it.
-/

namespace Kerosene.Mem
open Lib

variable {l front back : List Region} {r : Region} {size fuel n f a b prev : Nat} {align : Bool}

/-- No two free regions lie beside each other. -/
def NoAdjacentFree (l : List Region) : Prop := l.IsChain fun p q => p.used = true ∨ q.used = true

theorem noAdjacentFree_append_cons : NoAdjacentFree (front ++ r :: back) ↔ NoAdjacentFree front ∧ NoAdjacentFree back ∧
    (∀ p ∈ front.getLast?, p.used = true ∨ r.used = true) ∧ ∀ q ∈ back.head?, r.used = true ∨ q.used = true := by
  simp only [NoAdjacentFree, List.isChain_append, List.isChain_cons, List.head?_cons, Option.mem_some_iff, forall_eq']
  tauto

namespace Heap
variable {h h₁ : Heap} {pages : Pages} {final : Option Nat}

/-! ## Where the search stops -/

-- the bytes in front of the block that starts a page
def padding (align : Bool) (addr : Nat) : Nat := if align then alignOffset addr else 0

-- a first region whose padding could neither be a region nor join one
def Skipped (align : Bool) (header prev : Nat) : Prop :=
  0 < padding align (header + headerSize) ∧ padding align (header + headerSize) < headerSize + minRegionSize ∧ prev = 0

instance : Decidable (Skipped align a prev) := inferInstanceAs (Decidable (_ ∧ _ ∧ _))

/-- The region is free and large enough for `n` bytes and the padding. -/
def Stops (n : Nat) (align : Bool) (header prev : Nat) (r : Region) : Prop :=
  r.used = false ∧ ¬ Skipped align header prev ∧ u32 (n + padding align (header + headerSize)) ≤ r.size

instance : Decidable (Stops n align a prev r) := inferInstanceAs (Decidable (_ ∧ _ ∧ _))

theorem stops_unaligned (small : n < 2 ^ 32) : Stops n false a prev r ↔ r.used = false ∧ n ≤ r.size := by
  simp [Stops, Skipped, padding, u32_of_lt small]

theorem HeaderAt.fits (header : h.HeaderAt a r prev) (small : a + headerSize < 2 ^ 32) (asked : n < 2 ^ 32) :
    h.fits a n align = some (decide (¬ Skipped align a prev ∧ u32 (n + padding align (a + headerSize)) ≤ r.size)) := by
  rw [Heap.fits, u32_of_lt small]
  cases align with
  | false => simp [header.size, Skipped, padding, u32_of_lt asked]
  | true =>
      simp only [header.prev, header.size, Skipped, padding, if_true, Option.bind_eq_bind, Option.bind_some, ge_iff_le]
      by_cases positive : 0 < alignOffset (a + headerSize) <;>
        by_cases few : alignOffset (a + headerSize) < headerSize + minRegionSize <;> by_cases first : prev = 0 <;>
          simp [positive, few, first]

theorem HeaderAt.findLoop (header : h.HeaderAt a r prev) (inside : a + headerSize ≤ h.end_) (small : h.end_ < 2 ^ 32)
    (asked : n < 2 ^ 32) :
    h.findLoop n align (fuel + 1) a final =
      if Stops n align a prev r then some (a, final) else h.findLoop n align fuel (a + 12 + r.size) (some a) := by
  have size : headerSize = 12 := rfl
  rw [Heap.findLoop, if_pos (by omega), header.magic, Option.bind_eq_bind, Option.bind_some, header.next]
  by_cases free : r.used = false
  · rw [if_pos (Region.magic_eq_free.mpr free), header.fits (by omega) asked]
    by_cases stops : ¬ Skipped align a prev ∧ u32 (n + padding align (a + headerSize)) ≤ r.size
    · rw [if_pos ⟨free, stops⟩]
      simp [stops]
    · rw [if_neg fun all => stops all.2]
      simp [stops]
  · rw [if_neg fun same => free (Region.magic_eq_free.mp same), if_neg fun all => free all.1]
    rfl

theorem findLoop_append (mapped : h.Mapped) (low : h.firstHeader ≤ a) (tiles : Tiles h.memory a prev (front ++ back))
    (ends : endOf a (front ++ back) ≤ h.end_) (small : h.end_ < 2 ^ 32) (asked : n < 2 ^ 32)
    (passed : ∀ p r q, front = p ++ r :: q → ¬ Stops n align (endOf a p) (lastOf a prev p) r) (fuel : Nat) (final : Option Nat) :
    h.findLoop n align (fuel + front.length) a final =
      h.findLoop n align fuel (endOf a front) (if front = [] then final else some (lastOf a prev front)) := by
  induction front generalizing a prev final with
  | nil => rfl
  | cons r front ih =>
      have inside := le_endOf (a + 12 + r.size) (front ++ back)
      have header := headerAt_of_tiles mapped low tiles ends small
      have here : ¬ Stops n align a prev r := passed [] r front rfl
      rw [List.cons_append, endOf_cons] at ends
      rw [List.length_cons, ← Nat.add_assoc, header.findLoop (by rw [headerSize]; omega) small asked, if_neg here,
        ih (by omega) tiles.2.2.2 ends fun p r' q split => passed (r :: p) r' q (by rw [split]; rfl)]
      cases front <;> rfl

-- enough for all headers, as each has twelve bytes of the heap
theorem WellFormed.length_lt (wf : h.WellFormed l) : l.length < 2 ^ 32 := by
  have long := add_le_endOf h.firstHeader l
  have small := wf.small
  rw [wf.ends] at long
  omega

theorem WellFormed.findLoop_stops (wf : h.WellFormed (front ++ r :: back)) (asked : n < 2 ^ 32)
    (passed : ∀ p r q, front = p ++ r :: q → ¬ Stops n align (endOf h.firstHeader p) (lastOf h.firstHeader 0 p) r)
    (stops : Stops n align (endOf h.firstHeader front) (lastOf h.firstHeader 0 front) r) :
    ∃ final, h.findLoop n align (2 ^ 32) h.firstHeader none = some (endOf h.firstHeader front, final) := by
  have bounds := wf.bounds
  have many := wf.length_lt
  rw [List.length_append, List.length_cons] at many
  have fuel : 2 ^ 32 = (2 ^ 32 - front.length - 1 + 1) + front.length := by omega
  rw [fuel, findLoop_append wf.mapped le_rfl wf.tiles wf.ends.le wf.small asked passed,
    wf.headerAt.findLoop (by rw [headerSize]; omega) wf.small asked, if_pos stops]
  exact ⟨_, rfl⟩

/-! ## The first region with room -/

theorem WellFormed.findHeader_first (wf : h.WellFormed (front ++ ⟨f, false⟩ :: back)) (fits : size + headerSize < 2 ^ 32)
    (first : NoFit front size) (room : size + headerSize ≤ f) :
    h.findHeader size false pages = some (some (endOf h.firstHeader front), h) := by
  have bounds := wf.bounds
  have passed : ∀ p r q, front = p ++ r :: q →
      ¬ Stops (size + headerSize) false (endOf h.firstHeader p) (lastOf h.firstHeader 0 p) r := by
    intro p r q split stops
    have stopped := (stops_unaligned fits).mp stops
    have := first r (by rw [split]; simp) stopped.1
    omega
  obtain ⟨final, found⟩ := wf.findLoop_stops fits passed ((stops_unaligned fits).mpr ⟨rfl, room⟩)
  rw [Heap.findHeader, u32_of_lt fits, found, Option.bind_eq_bind, Option.bind_some]
  exact if_pos (by omega)

theorem endOf_splitInto (f size : Nat) : endOf a (splitInto f size) = a + 12 + f := by
  rw [splitInto]
  split_ifs
  · rfl
  · simp only [endOf_cons, endOf_nil]
    omega

theorem splitInto_of_room (room : size + headerSize ≤ f) : ∃ s, size ≤ s ∧ s ≤ size + headerSize + minRegionSize - 1 ∧
    splitInto f size = ⟨s, false⟩ ::
      if f - size ≥ headerSize + minRegionSize then [⟨f - size - headerSize, false⟩] else [] := by
  rw [headerSize, minRegionSize] at *
  rw [splitInto]
  by_cases few : f < size + 16
  · exact ⟨f, by omega, by omega, by rw [if_pos few, if_neg (by omega)]⟩
  · exact ⟨size, le_rfl, by omega, by rw [if_neg few, if_pos (by omega)]⟩

theorem WellFormed.heapAlloc_first (wf : h.WellFormed (front ++ ⟨f, false⟩ :: back)) (fits : size + headerSize < 2 ^ 32)
    (first : NoFit front size) (room : size + headerSize ≤ f) {s : Nat} {rest : List Region}
    (into : splitInto f size = ⟨s, false⟩ :: rest) :
    ∃ m, h.heapAlloc size false pages = some (some (endOf h.firstHeader front + headerSize), h.withMemory m) ∧
      (h.withMemory m).WellFormed (front ++ ⟨s, true⟩ :: (rest ++ back)) := by
  have bounds := wf.bounds
  have small := wf.small
  obtain ⟨m, split, wf₁⟩ := wf.splitRegion room
  rw [into, List.append_assoc, List.cons_append] at wf₁
  obtain ⟨m', marked, wf₂, -⟩ := wf₁.setMagic (u := true)
  refine ⟨m', ?_, wf₂⟩
  have used : (h.withMemory m).setMagic (endOf h.firstHeader front) heapUsedMagic = some (h.withMemory m') := marked
  have header : headerSize = 12 := rfl
  dsimp only at bounds
  rw [heapAlloc_some (wf.findHeader_first fits first room), u32_of_lt (by omega), split, Option.bind_some, used,
    Option.bind_some, u32_of_lt (by omega)]

/-- The block is taken from the first free region that has room for it and a header. What is left of the region
becomes free behind the block, unless it is too small. -/
def FirstFit (h : Heap) (l : List Region) (size : Nat) (pages : Pages) : Prop :=
  ∃ front f back s rest h', l = front ++ ⟨f, false⟩ :: back ∧ NoFit front size ∧ size + headerSize ≤ f ∧
    h.heapAlloc size false pages = some (some (endOf h.firstHeader front + headerSize), h') ∧
    size ≤ s ∧ s ≤ size + headerSize + minRegionSize - 1 ∧
    rest = (if f - size ≥ headerSize + minRegionSize then [⟨f - size - headerSize, false⟩] else []) ∧
    h'.WellFormed (front ++ ⟨s, true⟩ :: (rest ++ back)) ∧ NoAdjacentFree (front ++ ⟨s, true⟩ :: (rest ++ back)) ∧
    h'.heap = h.heap ∧ h'.end_ = h.end_ ∧
    ∀ c q, c ≠ endOf h.firstHeader front → (c, q) ∈ layout h.firstHeader l →
      (c, q) ∈ layout h'.firstHeader (front ++ ⟨s, true⟩ :: (rest ++ back))

theorem heapAlloc_first_fit (wf : h.WellFormed l) (apart : NoAdjacentFree l) (fits : size + headerSize < 2 ^ 32)
    (room : ∃ r ∈ l, r.used = false ∧ size + headerSize ≤ r.size) : h.FirstFit l size pages := by
  obtain ⟨found, search⟩ : ∃ r, l.find? (fun r => decide (r.used = false ∧ size + headerSize ≤ r.size)) = some r := by
    rw [← Option.isSome_iff_exists, List.find?_isSome]
    simpa using room
  obtain ⟨enough, front, back, rfl, before⟩ := List.find?_eq_some_iff_append.mp search
  obtain ⟨f, used⟩ := found
  obtain ⟨free, enough⟩ := of_decide_eq_true enough
  cases free
  have first : NoFit front size := by
    intro r member free
    have passed := before r member
    simp only [free, true_and, Bool.not_eq_true', decide_eq_false_iff_not] at passed
    omega
  obtain ⟨s, low, high, into⟩ := splitInto_of_room enough
  obtain ⟨m, done, wf'⟩ := wf.heapAlloc_first fits first enough into
  refine ⟨front, f, back, s, _, _, rfl, first, enough, done, low, high, rfl, wf', ?_, rfl, rfl, ?_⟩
  · obtain ⟨frontApart, backApart, -, next⟩ := noAdjacentFree_append_cons.mp apart
    refine noAdjacentFree_append_cons.mpr ⟨frontApart, ?_, fun _ _ => .inr rfl, fun _ _ => .inl rfl⟩
    split_ifs
    · rw [NoAdjacentFree, List.singleton_append, List.isChain_cons]
      exact ⟨next, backApart⟩
    · exact backApart
  · have same := endOf_splitInto (a := endOf h.firstHeader front) f size
    rw [into] at same
    rintro c q other member
    rw [layout_append, layout_cons] at member
    rw [withMemory_firstHeader, layout_append, ← List.cons_append, layout_append, endOf_cons]
    rcases List.mem_append.mp member with inFront | behind
    · exact List.mem_append_left _ inFront
    rcases List.mem_cons.mp behind with here | inBack
    · cases here
      exact absurd rfl other
    · refine List.mem_append_right _ (List.mem_append_right _ ?_)
      rw [endOf_cons] at same
      rwa [same]

-- the free region of 20 bytes is passed over, and 888 bytes of the other one are left
theorem heapAlloc_first_fit_one_page :
    (onePageOf [⟨50, true⟩, ⟨20, false⟩, ⟨30, true⟩, ⟨1000, false⟩, ⟨2922, true⟩]).FirstFit
      [⟨50, true⟩, ⟨20, false⟩, ⟨30, true⟩, ⟨1000, false⟩, ⟨2922, true⟩] 100 none :=
  heapAlloc_first_fit (onePageOf_wellFormed rfl) (by simp [NoAdjacentFree]) (by decide)
    ⟨⟨1000, false⟩, by simp, rfl, by decide⟩

end Heap
end Kerosene.Mem
