import Kerosene.Mem.HeapSearch

/-!
# Requests that are larger than the heap may become

Three sums of `heap_alloc` may wrap: the request with its header, the same in whole pages, and the end of the
heap that has grown. Where one does, the request may be served all the same.
-/

namespace Kerosene.Mem
open Lib

variable {l front back : List Region} {r : Region} {size n a prev : Nat} {align : Bool}

namespace Heap
variable {h h' : Heap} {pages : Pages}

/-! ## What is asked for, before anything wraps -/

def padded (size : Nat) (align : Bool) (header : Nat) : Nat := size + headerSize + padding align (header + headerSize)

-- the bytes that are missing behind the last region
def missing (h : Heap) (l : List Region) (size : Nat) (align : Bool) : Nat :=
  match l.getLast? with
  | some ⟨f, false⟩ => size - f + padding align (lastOf h.firstHeader 0 l + headerSize)
  | _ => size + headerSize + padding align (h.end_ + headerSize)

-- in whole pages
def growth (h : Heap) (l : List Region) (size : Nat) (align : Bool) : Nat :=
  (h.missing l size align + (pageSize - 1)) / pageSize * pageSize

/-- No free region is large enough for what is left of the request when it wraps, and the new end of the heap
does not wrap to where the heap may end. -/
def Refusable (h : Heap) (l : List Region) (size : Nat) (align : Bool) : Prop :=
  (∀ front r back, l = front ++ r :: back → r.used = false →
    Skipped align (endOf h.firstHeader front) (lastOf h.firstHeader 0 front) ∨
      padded size align (endOf h.firstHeader front) < 2 ^ 32 ∨ r.size + 2 ^ 32 < padded size align (endOf h.firstHeader front)) ∧
  (h.growth l size align = 2 ^ 32 ∨ h.end_ + h.growth l size align < 2 ^ 32 ∨
    2 ^ 32 < h.growth l size align ∧ h.maxAddr + 2 ^ 32 < h.end_ + h.growth l size align ∧
      h.end_ + h.growth l size align < 2 ^ 33)

theorem alignOffset_lt (a : Nat) : alignOffset a < pageSize := by
  have page : 0 < pageSize := by decide
  rw [alignOffset]
  split_ifs
  · exact Nat.sub_lt page (by assumption)
  · exact page

theorem padding_lt (align : Bool) (a : Nat) : padding align a < pageSize := by
  rw [padding]
  split_ifs
  · exact alignOffset_lt a
  · decide

theorem alignOffset_u32 (a : Nat) : alignOffset (u32 a) = alignOffset a := by
  have same : u32 a % pageSize = a % pageSize := Nat.mod_mod_of_dvd a (by decide)
  rw [alignOffset, same]
  rfl

-- the padding of a request in 32 bits
theorem u32_padding (n a : Nat) :
    (if align = true then u32 (u32 n + alignOffset (u32 a)) else u32 n) = u32 (n + padding align a) := by
  rw [padding, alignOffset_u32]
  split_ifs
  · exact Nat.mod_add_mod _ _ _
  · rfl

theorem u32_roundUp (n : Nat) : (if u32 n % pageSize > 0 then u32 (u32 n + (pageSize - u32 n % pageSize)) else u32 n) =
    u32 ((n + (pageSize - 1)) / pageSize * pageSize) := by
  rw [u32, u32, u32, pageSize]
  split_ifs <;> omega

theorem WellFormed.size_lt (wf : h.WellFormed l) (member : r ∈ l) : r.size + 26 ≤ h.end_ - h.heap := by
  obtain ⟨front, back, rfl⟩ := List.append_of_mem member
  have bounds := wf.bounds
  have first : h.firstHeader = h.heap + 14 := rfl
  omega

/-! ## The search -/

def StopsIn (h : Heap) (l : List Region) (n : Nat) (align : Bool) : Prop :=
  ∃ front r back, l = front ++ r :: back ∧ Stops n align (endOf h.firstHeader front) (lastOf h.firstHeader 0 front) r

theorem StopsIn.first (stops : h.StopsIn l n align) : ∃ front r back, l = front ++ r :: back ∧
    Stops n align (endOf h.firstHeader front) (lastOf h.firstHeader 0 front) r ∧
    ∀ p r q, front = p ++ r :: q → ¬ Stops n align (endOf h.firstHeader p) (lastOf h.firstHeader 0 p) r := by
  obtain ⟨front, r, back, split, here⟩ := stops
  induction long : front.length using Nat.strong_induction_on generalizing front r back with
  | _ k ih =>
      by_cases earlier : ∃ p s q, front = p ++ s :: q ∧ Stops n align (endOf h.firstHeader p) (lastOf h.firstHeader 0 p) s
      · obtain ⟨p, s, q, rfl, sooner⟩ := earlier
        refine ih p.length ?_ p s (q ++ r :: back) (by rw [split]; simp) sooner rfl
        rw [← long]
        simp
      · exact ⟨front, r, back, split, here, fun p s q sub stops => earlier ⟨p, s, q, sub, stops⟩⟩

theorem WellFormed.findLoop_end (wf : h.WellFormed l) (nonempty : l ≠ []) (asked : n < 2 ^ 32)
    (passed : ¬ h.StopsIn l n align) :
    h.findLoop n align (2 ^ 32) h.firstHeader none = some (h.end_, some (lastOf h.firstHeader 0 l)) := by
  have many := wf.length_lt
  have fuel : 2 ^ 32 = (2 ^ 32 - l.length - 1 + 1) + l.length := by omega
  have tiles : Tiles h.memory h.firstHeader 0 (l ++ []) := by rw [List.append_nil]; exact wf.tiles
  have ends : endOf h.firstHeader (l ++ []) ≤ h.end_ := by rw [List.append_nil]; exact wf.ends.le
  rw [fuel, findLoop_append wf.mapped le_rfl tiles ends wf.small asked fun p r q split stops => passed ⟨p, r, q, split, stops⟩,
    wf.ends, Heap.findLoop, if_neg (Nat.lt_irrefl _), if_neg nonempty]
  rfl

-- the request with its header and the padding, in 32 bits, against a region that is smaller than the request
theorem stops_iff (less : r.size < size) (small : size < 2 ^ 32) :
    Stops (u32 (size + headerSize)) align a prev r ↔ r.used = false ∧ ¬ Skipped align a prev ∧
      2 ^ 32 ≤ padded size align a ∧ padded size align a ≤ r.size + 2 ^ 32 := by
  have page := padding_lt align (a + headerSize)
  have wrapped : u32 (u32 (size + headerSize) + padding align (a + headerSize)) = u32 (padded size align a) :=
    Nat.mod_add_mod _ _ _
  rw [Stops, wrapped]
  rw [padded, headerSize, pageSize] at *
  have : u32 (size + 12 + padding align (a + 12)) ≤ r.size ↔ 2 ^ 32 ≤ size + 12 + padding align (a + 12) ∧
      size + 12 + padding align (a + 12) ≤ r.size + 2 ^ 32 := by
    rw [u32]
    omega
  rw [this]

/-! ## Growing -/

-- the growth wraps to what the source computes
theorem WellFormed.neededSize_last (wf : h.WellFormed l) (nonempty : l ≠ []) (larger : ∀ r ∈ l, r.size < size)
    (small : size < 2 ^ 32) :
    h.neededSize size (lastOf h.firstHeader 0 l) align = some (u32 (h.growth l size align)) := by
  obtain ⟨front, ⟨f, used⟩, rfl⟩ := (List.eq_nil_or_concat l).resolve_left nonempty
  rw [List.concat_eq_append] at *
  have header := wf.headerAt
  have bounds := wf.bounds
  have less : f < size := larger ⟨f, used⟩ (by simp)
  have ends := wf.small
  rw [growth, missing, List.getLast?_concat]
  simp only [lastOf_append, lastOf_cons, lastOf_nil] at header ⊢
  generalize place : endOf h.firstHeader front = b at *
  dsimp only at bounds
  cases used with
  | true =>
      simp only [Heap.neededSize, neededFrom, header.magic, Region.magic, if_true, Option.bind_eq_bind, Option.bind_some,
        Option.pure_def, u32_padding, u32_roundUp]
  | false =>
      have magic : Region.magic ⟨f, false⟩ ≠ heapUsedMagic := fun same => by cases Region.magic_eq_used.mp same
      have rest : u32Sub size f = u32 (size - f) := by rw [u32Sub_of_le small less.le, u32_of_lt (by omega)]
      simp only [Heap.neededSize, neededFrom, header.magic, header.size, if_neg magic, Option.bind_eq_bind, Option.bind_some,
        Option.pure_def, rest, u32_padding, u32_roundUp]

theorem WellFormed.missing_bounds {a : Bool} (wf : h.WellFormed l) (nonempty : l ≠ []) (inside : h.end_ ≤ h.maxAddr)
    (oversized : h.maxAddr - h.heap ≤ size) :
    0 < h.missing l size a ∧ h.maxAddr < h.end_ + h.missing l size a ∧
      h.missing l size a < size + headerSize + pageSize := by
  obtain ⟨front, ⟨f, used⟩, rfl⟩ := (List.eq_nil_or_concat l).resolve_left nonempty
  rw [List.concat_eq_append] at *
  have less := wf.size_lt (r := ⟨f, used⟩) (by simp)
  have header : headerSize = 12 := rfl
  dsimp only at less
  rw [missing, List.getLast?_concat]
  cases used with
  | true =>
      have page := padding_lt a (h.end_ + headerSize)
      dsimp only
      omega
  | false =>
      have page := padding_lt a (lastOf h.firstHeader 0 (front ++ [⟨f, false⟩]) + headerSize)
      dsimp only
      omega

theorem heapExpand_fails (h : Heap) (n last : Nat) :
    (∀ pages, h.heapExpand n last pages = some (true, h)) ↔ n = 0 ∨ h.maxAddr < u32 (h.end_ + n * pageSize) := by
  constructor
  · intro fails
    by_contra holds
    obtain ⟨some_, fits⟩ := not_or.mp holds
    have done := fails (some (newPages n))
    rw [heapExpand, if_neg (by omega), allocPages, if_neg some_] at done
    simp only [Option.bind_eq_bind, Option.bind_eq_some_iff] at done
    obtain ⟨magic, -, done⟩ := done
    split_ifs at done <;> simp [Option.bind_eq_some_iff] at done
  · rintro (rfl | high) pages
    · rw [heapExpand]
      split_ifs <;> rfl
    · rw [heapExpand, if_pos (by omega)]
      rfl

/-! ## `heap_alloc` -/

theorem heapAlloc_null_iff : h.heapAlloc size align pages = some (none, h') ↔ h.findHeader size align pages = some (none, h') := by
  rw [heapAlloc]
  cases search : h.findHeader size align pages with
  | none => simp
  | some found =>
      obtain ⟨found, h₁⟩ := found
      cases found with
      | none => simp
      | some header =>
          simp only [Option.bind_eq_bind, Option.bind_some, Option.some.injEq, Prod.mk.injEq, reduceCtorEq, false_and, iff_false]
          simp only [Option.bind_eq_some_iff, not_exists, not_and]
          intro h₂ _ h₃ _ moved
          split_ifs at moved <;> simp [Option.bind_eq_some_iff] at moved

theorem WellFormed.findHeader_null_iff (wf : h.WellFormed l) (nonempty : l ≠ []) (larger : ∀ r ∈ l, r.size < size)
    (small : size < 2 ^ 32) :
    h.findHeader size align pages = some (none, h) ↔ ¬ h.StopsIn l (u32 (size + headerSize)) align ∧
      h.heapExpand (u32 (h.growth l size align) / pageSize) (lastOf h.firstHeader 0 l) pages = some (true, h) := by
  have asked : u32 (size + headerSize) < 2 ^ 32 := Nat.mod_lt _ (by decide)
  by_cases stops : h.StopsIn l (u32 (size + headerSize)) align
  · obtain ⟨front, r, back, rfl, here, first⟩ := stops.first
    have bounds := wf.bounds
    obtain ⟨final, found⟩ := wf.findLoop_stops asked first here
    have served : h.findHeader size align pages = some (some (endOf h.firstHeader front), h) := by
      rw [Heap.findHeader, found, Option.bind_eq_bind, Option.bind_some]
      exact if_pos (by omega)
    simp [served, stops]
  · rw [Heap.findHeader, wf.findLoop_end nonempty asked stops]
    simp only [Option.bind_eq_bind, Option.bind_some, if_neg (Nat.lt_irrefl _), wf.neededSize_last nonempty larger small]
    cases expanded : h.heapExpand (u32 (h.growth l size align) / pageSize) (lastOf h.firstHeader 0 l) pages with
    | none => simp
    | some result =>
        obtain ⟨err, h₁⟩ := result
        cases err <;> simp [stops]

/-- A request for at least as many bytes as the heap may have is refused, however many pages there are, if and only
if nothing that wraps lets it through. -/
theorem oversized_refused_iff (wf : h.WellFormed l) (nonempty : l ≠ []) (inside : h.end_ ≤ h.maxAddr)
    (address : h.maxAddr < 2 ^ 32) (oversized : h.maxAddr - h.heap ≤ size) (small : size < 2 ^ 32) :
    (∀ pages, h.heapAlloc size align pages = some (none, h)) ↔ h.Refusable l size align := by
  have larger : ∀ r ∈ l, r.size < size := fun r member => by
    have := wf.size_lt member
    omega
  obtain ⟨positive, low, high⟩ := wf.missing_bounds (a := align) nonempty inside oversized
  have refused : (∀ pages, h.heapAlloc size align pages = some (none, h)) ↔
      ¬ h.StopsIn l (u32 (size + headerSize)) align ∧ (u32 (h.growth l size align) / pageSize = 0 ∨
        h.maxAddr < u32 (h.end_ + u32 (h.growth l size align) / pageSize * pageSize)) := by
    rw [← heapExpand_fails h _ (lastOf h.firstHeader 0 l)]
    simp only [heapAlloc_null_iff, wf.findHeader_null_iff nonempty larger small]
    constructor
    · exact fun all => ⟨(all none).1, fun pages => (all pages).2⟩
    · exact fun ⟨passed, fails⟩ pages => ⟨passed, fails pages⟩
  rw [refused, Refusable]
  refine and_congr ?_ ?_
  · constructor
    · rintro passed front r back rfl free
      by_contra stops
      simp only [not_or, Nat.not_lt] at stops
      exact passed ⟨front, r, back, rfl, (stops_iff (larger r (by simp)) small).mpr ⟨free, stops⟩⟩
    · rintro all ⟨front, r, back, rfl, stops⟩
      obtain ⟨free, looked, wraps, fits⟩ := (stops_iff (larger r (by simp)) small).mp stops
      rcases all front r back rfl free with skipped | less | more
      · exact looked skipped
      · omega
      · omega
  · rw [growth, u32, u32]
    rw [headerSize, pageSize] at *
    omega

theorem oversized_refused_iff_one_page :
    (onePage ⟨4070, false⟩).heapAlloc 70000 true none = some (none, onePage ⟨4070, false⟩) := by
  refine (oversized_refused_iff onePage_wellFormed (by simp) (by decide) (by decide) (by decide) (by decide)).mpr
    ⟨fun front r back split free => .inr (.inl ?_), .inr (.inl (by decide))⟩ none
  have page := padding_lt true (endOf (onePage ⟨4070, false⟩).firstHeader front + headerSize)
  rw [padded]
  rw [headerSize, pageSize] at *
  omega

/-- The largest request takes a block of eleven bytes. -/
theorem largest_request_served :
    ¬ ∀ (h : Heap) (l : List Region) (size : Nat) (align : Bool), h.WellFormed l → l ≠ [] → h.end_ ≤ h.maxAddr →
        h.maxAddr < 2 ^ 32 → h.maxAddr - h.heap ≤ size → size < 2 ^ 32 →
        ∀ pages, h.heapAlloc size align pages = some (none, h) := by
  intro always
  have refused := always (onePage ⟨4070, false⟩) [⟨4070, false⟩] (2 ^ 32 - 1) false onePage_wellFormed (by simp) (by decide)
    (by decide) (by decide) (by decide) none
  have served : ((onePage ⟨4070, false⟩).heapAlloc (2 ^ 32 - 1) false none).any (fun r => r.1 == some 8218) = true := by
    decide
  rw [refused] at served
  cases served

end Heap
end Kerosene.Mem
