import Kerosene.Mem.HeapRegions

/-!
# When `heap_alloc` has to grow the heap
-/

namespace Kerosene.Mem
open Lib

variable {l front back : List Region} {r : Region} {size fuel n f : Nat}

namespace Heap
variable {h h₁ : Heap} {pages : Pages} {a b : Nat} {final found : Option Nat}

/-! ## The search -/

def NoFit (l : List Region) (size : Nat) : Prop := ∀ r ∈ l, r.used = false → r.size < size + headerSize

theorem findLoop_next (mapped : h.Mapped) (low : h.firstHeader ≤ a) (tiles : Tiles h.memory a b (r :: back))
    (ends : endOf a (r :: back) ≤ h.end_) (small : h.end_ < 2 ^ 32) (noFit : r.used = false → r.size < n) :
    h.findLoop n false (fuel + 1) a final = h.findLoop n false fuel (a + 12 + r.size) (some a) := by
  have header := headerAt_of_tiles mapped low tiles ends small
  have inside := le_endOf (a + 12 + r.size) back
  rw [endOf_cons] at ends
  rw [findLoop, if_pos (by omega)]
  by_cases free : r.used = false
  · have := noFit free
    simp only [header.magic, Region.magic_eq_free.mpr free, fits, header.size, header.next, Option.bind_eq_bind, Option.bind_some,
      if_true, ge_iff_le, Nat.not_le.mpr this, decide_false, Bool.false_eq_true, if_false, Option.pure_def]
  · have magic : r.magic ≠ heapFreeMagic := fun same => free (Region.magic_eq_free.mp same)
    simp only [header.magic, header.next, magic, if_false, Option.bind_eq_bind, Option.bind_some]

theorem findLoop_last (mapped : h.Mapped) (low : h.firstHeader ≤ a) (tiles : Tiles h.memory a b (front ++ [r]))
    (ends : endOf a (front ++ [r]) = h.end_) (small : h.end_ < 2 ^ 32)
    (noFit : ∀ q ∈ front ++ [r], q.used = false → q.size < n) (enough : front.length + 1 < fuel) :
    h.findLoop n false fuel a final = some (h.end_, some (endOf a front)) := by
  induction front generalizing a b final fuel with
  | nil =>
      obtain ⟨fuel, rfl⟩ : ∃ k, fuel = k + 2 := ⟨fuel - 2, by simp at enough; omega⟩
      rw [findLoop_next mapped low tiles ends.le small (noFit r (by simp))]
      have last : a + 12 + r.size = h.end_ := ends
      rw [findLoop, if_neg (by omega), last]
      rfl
  | cons q front ih =>
      obtain ⟨fuel, rfl⟩ : ∃ k, fuel = k + 1 := ⟨fuel - 1, by omega⟩
      rw [List.cons_append] at tiles ends noFit
      rw [findLoop_next mapped low tiles ends.le small (noFit q (by simp)),
        ih (by omega) tiles.2.2.2 ends (fun p member => noFit p (List.mem_cons_of_mem q member))
          (by simp at enough; omega)]
      rfl

theorem WellFormed.findLoop (wf : h.WellFormed (front ++ [r])) (noFit : NoFit (front ++ [r]) size)
    (fits : size + headerSize < 2 ^ 32) :
    h.findLoop (u32 (size + headerSize)) false (2 ^ 32) h.firstHeader none = some (h.end_, some (endOf h.firstHeader front)) := by
  have long := add_le_endOf h.firstHeader (front ++ [r])
  have small := wf.small
  rw [wf.ends, List.length_append, List.length_singleton] at long
  rw [u32_of_lt fits]
  exact findLoop_last wf.mapped le_rfl wf.tiles wf.ends small noFit (by omega)

theorem WellFormed.findHeader_last (wf : h.WellFormed (front ++ [r])) (noFit : NoFit (front ++ [r]) size)
    (fits : size + headerSize < 2 ^ 32) (done : h.findHeader size false pages = some (some a, h₁)) :
    a = endOf h.firstHeader front := by
  simp only [findHeader, wf.findLoop noFit fits, Nat.lt_irrefl, if_false, Option.bind_eq_bind, Option.bind_some,
    Option.bind_eq_some_iff] at done
  obtain ⟨needed, -, ⟨err, grown⟩, -, done⟩ := done
  cases err with
  | true => simp at done
  | false =>
      simp only [Bool.false_eq_true, if_false, Option.pure_def, Option.some.injEq, Prod.mk.injEq] at done
      exact done.1.symm

/-! ## Growing a free region at the end -/

theorem covers_aligned {frames : Frames} {start : Nat} (aligned : start % pageSize = 0) (all : ∀ i < n, frames.mapped i = true) :
    frames.covers start n a = true ↔ start ≤ a ∧ a < start + n * pageSize := by
  have page : pageSize = 4096 := rfl
  simp only [Frames.covers, Bool.and_eq_true, decide_eq_true_eq]
  rw [page] at aligned ⊢
  refine ⟨fun inside => by omega, fun inside => ⟨⟨by omega, by omega⟩, all _ (by omega)⟩⟩

theorem covers_gap {frames : Frames} {start : Nat} (positive : 0 < n) (gap : ¬ (start % pageSize = 0 ∧ ∀ i < n, frames.mapped i = true)) :
    ∃ a, start ≤ a ∧ a < start + n * pageSize ∧ frames.covers start n a = false := by
  have page : pageSize = 4096 := rfl
  rw [page] at gap ⊢
  by_cases aligned : start % 4096 = 0
  · obtain ⟨i, inside, missing⟩ : ∃ i < n, frames.mapped i = false := by
      by_contra none
      refine gap ⟨aligned, fun i inside => ?_⟩
      by_contra missing
      exact none ⟨i, inside, by simpa using missing⟩
    refine ⟨start + i * 4096, by omega, by omega, ?_⟩
    have place : (start + i * 4096) / 4096 - start / 4096 = i := by omega
    rw [Frames.covers, page, place, missing, Bool.and_false]
  · -- the last bytes lie in a page that is not asked for
    refine ⟨start + n * 4096 - 1, by omega, by omega, ?_⟩
    have last : ¬ (start + n * 4096 - 1) / 4096 < start / 4096 + n := by omega
    rw [Frames.covers, page, decide_eq_false last, Bool.and_false, Bool.false_and]

-- the whole pages by which the heap has to grow for `size` bytes in its last region
def pagesNeeded (size : Nat) : Option Region → Nat
  | some ⟨f, false⟩ => (size - f + (pageSize - 1)) / pageSize
  | _ => (size + headerSize + (pageSize - 1)) / pageSize

/-- The heap ends with a page, and all new pages are mapped. -/
structure Backed (h : Heap) (n : Nat) (pages : Pages) : Prop where
  aligned : h.end_ % pageSize = 0
  mapped : ∀ frames ∈ pages, ∀ i < n, frames.mapped i = true

structure MayGrow (h : Heap) (l : List Region) (size : Nat) (pages : Pages) : Prop where
  room : h.end_ + pagesNeeded size l.getLast? * pageSize ≤ h.maxAddr
  address : h.maxAddr < 2 ^ 32
  supplied : pages.isSome

theorem WellFormed.neededSize (wf : h.WellFormed (front ++ [⟨f, false⟩])) (fits : f < size + headerSize)
    (small : size + headerSize < 2 ^ 32) (room : pagesNeeded size (some ⟨f, false⟩) * pageSize < 2 ^ 32) :
    h.neededSize size (endOf h.firstHeader front) false = some (pagesNeeded size (some ⟨f, false⟩) * pageSize) := by
  have header := wf.headerAt
  have magic : Region.magic ⟨f, false⟩ ≠ heapUsedMagic := fun same => by cases Region.magic_eq_used.mp same
  rw [pagesNeeded, headerSize, pageSize] at *
  simp only [Heap.neededSize, neededFrom, header.magic, header.size, if_neg magic, Option.bind_eq_bind, Option.bind_some,
    Option.pure_def, Bool.false_eq_true, if_false, pageSize, Option.some.injEq]
  by_cases less : f ≤ size
  · rw [u32Sub_of_le (by omega) less]
    split_ifs with partly
    · rw [u32_of_lt (by omega)]
      omega
    · omega
  · -- the difference wraps, and rounding it up wraps again
    rw [u32Sub_of_lt (by omega) (by omega)]
    split_ifs with partly
    · rw [u32]
      omega
    · omega

-- the heap when the pages are mapped and `heap->end` has moved
def grown (h : Heap) (n : Nat) (frames : Frames) : Heap :=
  { h with
    end_ := u32 (h.end_ + n * pageSize)
    memory := fun a => if frames.covers h.end_ n a then frames.memory a else h.memory a
    unmapped := fun a => !frames.covers h.end_ n a && (decide (h.end_ ≤ a) || h.unmapped a) }

theorem WellFormed.heapExpand {frames : Frames} (wf : h.WellFormed (front ++ [⟨f, false⟩])) (positive : 0 < n)
    (room : h.end_ + n * pageSize ≤ h.maxAddr) (address : h.maxAddr < 2 ^ 32) (aligned : h.end_ % pageSize = 0)
    (all : ∀ i < n, frames.mapped i = true) :
    ∃ h₁, h.heapExpand n (endOf h.firstHeader front) (some frames) = some (false, h₁) ∧
      h₁.WellFormed (front ++ [⟨f + n * pageSize, false⟩]) ∧ h₁.heap = h.heap ∧ h₁.end_ = h.end_ + n * pageSize := by
  have page : pageSize = 4096 := rfl
  have ends := wf.ends
  obtain ⟨low, high⟩ := wf.bounds
  simp only [endOf_append, endOf_cons, endOf_nil] at ends
  dsimp only at high
  obtain ⟨before, magic, size, prev, -⟩ := tiles_append.mp wf.tiles
  generalize place : endOf h.firstHeader front = b at *
  have grownEnd : u32 (h.end_ + n * pageSize) = h.end_ + n * pageSize := u32_of_lt (by omega)
  have covers : ∀ a, frames.covers h.end_ n a = true ↔ h.end_ ≤ a ∧ a < h.end_ + n * pageSize := fun a => covers_aligned aligned all
  generalize made : h.grown n frames = grown
  have first : grown.firstHeader = h.firstHeader := by subst made; rfl
  have endsAt : grown.end_ = h.end_ + n * pageSize := by subst made; exact grownEnd
  have same : ∀ i, i < h.end_ → grown.memory i = h.memory i := by
    intro i inside
    subst made
    exact if_neg fun fresh => absurd ((covers i).mp fresh).1 (Nat.not_le.mpr inside)
  have mapped : grown.Mapped := by
    intro a low high
    rw [first] at low
    rw [endsAt] at high
    subst made
    by_cases fresh : h.end_ ≤ a
    · have covered : frames.covers h.end_ n a = true := (covers a).mpr ⟨fresh, high⟩
      simp [Heap.grown, covered]
    · simp [Heap.grown, fresh, wf.mapped a low (Nat.not_le.mp fresh)]
  have reads : ∀ a, h.firstHeader ≤ a → a + 4 ≤ h.end_ → grown.load a = some (h.memory.word a) := by
    intro a above below
    rw [load_eq mapped (by omega) (by omega), Bytes.word_congr fun i _ upper => same i (by omega)]
  refine ⟨grown.withMemory (grown.memory.setWord (b + 4) (f + n * pageSize)), ?_, ⟨?_, ?_, ?_, mapped⟩, ?_, endsAt⟩
  · have full : ¬ u32 (h.end_ + n * pageSize) > h.maxAddr := by
      rw [grownEnd]
      exact Nat.not_lt.mpr room
    have magic' : grown.magic b = some heapFreeMagic := by
      rw [Heap.magic, reads b low (by omega), magic]
      rfl
    have size' : grown.size b = some f := by rw [Heap.size, reads (b + 4) (by omega) (by omega), size]
    have stored : grown.setSize b (f + n * pageSize) = some (grown.withMemory (grown.memory.setWord (b + 4) (f + n * pageSize))) :=
      store_eq mapped (by omega) (by omega)
    have kept : u32 (f + n * pageSize) = f + n * pageSize := u32_of_lt (by omega)
    rw [Heap.heapExpand, if_neg full, allocPages, if_neg positive.ne']
    change (do if (← (h.grown n frames).magic b) = heapFreeMagic then _ else _) = _
    rw [made, magic', Option.bind_eq_bind, Option.bind_some, if_pos rfl]
    change (do let size ← (h.grown n frames).size b; return (false, ← (h.grown n frames).setSize b (u32 (size + n * pageSize)))) = _
    rw [made, size', Option.bind_eq_bind, Option.bind_some, kept, stored]
    rfl
  · rw [withMemory_firstHeader, first, withMemory_memory]
    have kept : ∀ i, i < b + 4 ∨ b + 8 ≤ i → i < h.end_ → grown.memory.setWord (b + 4) (f + n * pageSize) i = h.memory i := by
      intro i outside inside
      rw [Bytes.setWord_of_outside (by omega)]
      exact same i inside
    refine tiles_append.mpr ⟨before.congr fun i _ below => kept i (by omega) (by omega), ?_⟩
    rw [place]
    refine ⟨?_, Bytes.word_setWord (by omega), ?_, trivial⟩
    · rw [Bytes.word_congr fun i _ upper => kept i (by omega) (by omega), magic]
      rfl
    · rw [Bytes.word_congr fun i _ upper => kept i (by omega) (by omega), prev]
  · simp only [withMemory_firstHeader, withMemory_end, first, endsAt, endOf_append, endOf_cons, endOf_nil, place]
    omega
  · rw [withMemory_end, endsAt]
    omega
  · subst made
    rfl

theorem WellFormed.findHeader_eq (wf : h.WellFormed (front ++ [⟨f, false⟩]))
    (noFit : NoFit (front ++ [⟨f, false⟩]) size) (fits : size + headerSize < 2 ^ 32)
    (room : h.end_ + pagesNeeded size (some ⟨f, false⟩) * pageSize ≤ h.maxAddr) (address : h.maxAddr < 2 ^ 32) :
    h.findHeader size false pages =
      (h.heapExpand (pagesNeeded size (some ⟨f, false⟩)) (endOf h.firstHeader front) pages).bind
        fun r => if r.1 then some (none, r.2) else some (some (endOf h.firstHeader front), r.2) := by
  have needed := wf.neededSize (noFit ⟨f, false⟩ (by simp) rfl) fits (by omega)
  have page : 0 < pageSize := by decide
  simp only [Heap.findHeader, wf.findLoop noFit fits, Nat.lt_irrefl, if_false, needed, Option.bind_eq_bind, Option.bind_some,
    Nat.mul_div_cancel _ page, Option.pure_def]

theorem WellFormed.findHeader {frames : Frames} (wf : h.WellFormed (front ++ [⟨f, false⟩]))
    (noFit : NoFit (front ++ [⟨f, false⟩]) size) (fits : size + headerSize < 2 ^ 32)
    (room : h.end_ + pagesNeeded size (some ⟨f, false⟩) * pageSize ≤ h.maxAddr) (address : h.maxAddr < 2 ^ 32)
    (some_ : pagesNeeded size (some ⟨f, false⟩) ≠ 0) (aligned : h.end_ % pageSize = 0)
    (all : ∀ i < pagesNeeded size (some ⟨f, false⟩), frames.mapped i = true) :
    ∃ h₁, h.findHeader size false (some frames) = some (some (endOf h.firstHeader front), h₁) ∧
      h₁.WellFormed (front ++ [⟨f + pagesNeeded size (some ⟨f, false⟩) * pageSize, false⟩]) ∧ h₁.heap = h.heap ∧
      h₁.end_ = h.end_ + pagesNeeded size (some ⟨f, false⟩) * pageSize := by
  obtain ⟨h₁, expanded, wf₁, same, ends⟩ := wf.heapExpand (Nat.pos_of_ne_zero some_) room address aligned all
  refine ⟨h₁, ?_, wf₁, same, ends⟩
  rw [wf.findHeader_eq noFit fits room address, expanded]
  rfl

/-! ## Splitting a region -/

/-- What the split leaves of a free region of `f` bytes. -/
def splitInto (f size : Nat) : List Region :=
  if f < size + 16 then [⟨f, false⟩] else [⟨size, false⟩, ⟨f - size - 12, false⟩]

theorem splitInto_eq (enough : size ≤ f) : ∃ s rest, splitInto f size = ⟨s, false⟩ :: rest ∧ size ≤ s := by
  rw [splitInto]
  split_ifs
  · exact ⟨f, [], rfl, enough⟩
  · exact ⟨size, _, rfl, le_rfl⟩

theorem WellFormed.splitRegion_keeps (wf : h.WellFormed (front ++ ⟨f, false⟩ :: back)) (enough : size + headerSize ≤ f) :
    ∃ m, h.splitRegion (endOf h.firstHeader front) size = some (h.withMemory m) ∧
      (h.withMemory m).WellFormed (front ++ splitInto f size ++ back) ∧
      ∀ i, (∀ q ∈ layout h.firstHeader (front ++ splitInto f size ++ back), i < q.1 ∨ q.1 + 12 ≤ i) → m i = h.memory i := by
  have header := wf.headerAt
  obtain ⟨low, high⟩ := wf.bounds
  obtain ⟨before, magic, sizes, prev, after⟩ := tiles_append.mp wf.tiles
  have ends := wf.ends
  have small := wf.small
  simp only [endOf_append, endOf_cons] at ends
  generalize place : endOf h.firstHeader front = b at *
  dsimp only at high sizes after ends
  rw [headerSize] at enough
  have spare : u32Sub (u32Sub f size) headerSize = f - size - 12 := by
    have taken : u32Sub f size = f - size := u32Sub_of_le (by omega) (by omega)
    rw [taken]
    exact u32Sub_of_le (by omega) (by rw [headerSize]; omega)
  have region : minRegionSize = 4 := rfl
  rw [splitInto]
  by_cases few : f < size + 16
  · refine ⟨h.memory, ?_, by rw [if_pos few, List.append_assoc]; exact wf, fun _ _ => rfl⟩
    simp only [Heap.splitRegion, header.size, spare, Option.bind_eq_bind, Option.bind_some]
    exact if_neg (by omega)
  · have newh : u32 (b + headerSize + size) = b + 12 + size := u32_of_lt (by rw [headerSize]; omega)
    rw [if_neg few]
    obtain ⟨m, made, newMagic, newSize, newPrev, kept⟩ := setHeader_spec (h := h) (x := b + 12 + size) (w := heapFreeMagic)
      (n := f - size - 12) (p := b) wf.mapped (by omega) (by omega) (by decide) (by omega) (by omega)
    have next : b + 12 + size + 12 + (f - size - 12) = b + 12 + f := by omega
    have rest : Tiles m (b + 12 + f) b back := after.congr fun i above _ => kept i (.inr (by omega))
    have newHeader : (h.withMemory m).HeaderAt (b + 12 + size) ⟨f - size - 12, false⟩ b := by
      refine headerAt_of_tiles (l := []) wf.mapped.withMemory (by rw [withMemory_firstHeader]; omega)
        ⟨newMagic, newSize, newPrev, trivial⟩ ?_ small
      simp only [endOf_cons, endOf_nil, withMemory_end]
      omega
    obtain ⟨m₁, linked, rest₁, kept₁⟩ := linkNext_spec (v := b) wf.mapped.withMemory (by rw [withMemory_firstHeader]; omega) newHeader
      small (by rwa [next]) (by rw [next, withMemory_end, ends])
    dsimp only at rest₁ kept₁
    rw [next] at rest₁
    have inside : ∀ i, i < b + 12 + size → m₁ i = h.memory i := fun i below => by
      rw [kept₁ i (.inl (by omega)), withMemory_memory, kept i (.inl below)]
    refine ⟨m₁.setWord (b + 4) size, ?_, ?_, ?_⟩
    · simp only [Heap.splitRegion, header.size, spare, newh, made, linked, Option.bind_eq_bind, Option.bind_some, setSize]
      rw [if_pos (by omega), store_eq wf.mapped.withMemory.withMemory (by simp only [withMemory_firstHeader]; omega)
        (by simp only [withMemory_end]; omega)]
      rfl
    · refine ⟨?_, ?_, small, wf.mapped.withMemory⟩
      · rw [withMemory_memory, withMemory_firstHeader, List.append_assoc]
        have changed : ∀ i, i < b + 4 ∨ b + 8 ≤ i → m₁.setWord (b + 4) size i = m₁ i := fun i outside =>
          Bytes.setWord_of_outside (by omega)
        have front_ : ∀ i, i < b + 4 ∨ b + 8 ≤ i → i < b + 12 + size → m₁.setWord (b + 4) size i = h.memory i :=
          fun i outside below => by rw [changed i outside, inside i below]
        have new : ∀ i, b + 12 + size ≤ i → i < b + 12 + f → m₁.setWord (b + 4) size i = m i := fun i above below => by
          rw [changed i (by omega), kept₁ i (.inl (by omega)), withMemory_memory]
        refine tiles_append.mpr ⟨before.congr fun i _ below => front_ i (by omega) (by omega), ?_⟩
        rw [place]
        refine ⟨?_, Bytes.word_setWord (by omega), ?_, ?_, ?_, ?_, ?_⟩
        · rw [Bytes.word_congr fun i _ upper => front_ i (by omega) (by omega), magic]
          rfl
        · rw [Bytes.word_congr fun i _ upper => front_ i (by omega) (by omega), prev]
        all_goals dsimp only
        · rw [Bytes.word_congr fun i _ upper => new i (by omega) (by omega), newMagic]
          rfl
        · rw [Bytes.word_congr fun i _ upper => new i (by omega) (by omega), newSize]
        · rw [Bytes.word_congr fun i _ upper => new i (by omega) (by omega), newPrev]
        · rw [next]
          exact rest₁.congr fun i above _ => changed i (by omega)
      · simp only [withMemory_firstHeader, withMemory_end, endOf_append, endOf_cons, endOf_nil, place, next, ends]
    · intro i outside
      simp only [layout_append, layout_cons, layout_nil, endOf_cons, endOf_nil, place, next, List.append_assoc,
        List.mem_append, List.mem_cons, List.not_mem_nil, or_false] at outside
      have here := outside (b, ⟨size, false⟩) (.inr (.inl (.inl rfl)))
      have rest := outside (b + 12 + size, ⟨f - size - 12, false⟩) (.inr (.inl (.inr rfl)))
      rw [Bytes.setWord_of_outside (by omega), kept₁ i (.inr fun q member => ?_), withMemory_memory, kept i rest]
      exact outside q (.inr (.inr (by rwa [next] at member)))

theorem WellFormed.splitRegion (wf : h.WellFormed (front ++ ⟨f, false⟩ :: back)) (enough : size + headerSize ≤ f) :
    ∃ m, h.splitRegion (endOf h.firstHeader front) size = some (h.withMemory m) ∧
      (h.withMemory m).WellFormed (front ++ splitInto f size ++ back) := by
  obtain ⟨m, split, wf₁, -⟩ := wf.splitRegion_keeps enough
  exact ⟨m, split, wf₁⟩

-- the header of the rest would end behind the heap
theorem WellFormed.splitRegion_none (wf : h.WellFormed (front ++ [⟨f, false⟩])) (less : f < size + headerSize)
    (enough : size ≤ f) : h.splitRegion (endOf h.firstHeader front) size = none := by
  have header := wf.headerAt
  have ends := wf.ends
  have small := wf.small
  simp only [endOf_append, endOf_cons, endOf_nil] at ends
  rw [headerSize] at less
  generalize place : endOf h.firstHeader front = b at *
  have newh : u32 (b + headerSize + size) = b + 12 + size := u32_of_lt (by rw [headerSize]; omega)
  have spare : u32Sub (u32Sub f size) headerSize = f - size + 2 ^ 32 - 12 := by
    have taken : u32Sub f size = f - size := u32Sub_of_le (by omega) enough
    rw [taken]
    exact u32Sub_of_lt (by decide) (by rw [headerSize]; omega)
  have region : minRegionSize = 4 := rfl
  simp only [Heap.splitRegion, header.size, spare, newh, Option.bind_eq_bind, Option.bind_some]
  rw [if_pos (by omega), setHeader_none (by omega), Option.bind_none]

/-! ## `heap_alloc` -/

theorem store_withMemory {v : Nat} (done : h.store a v = some h₁) : h₁ = h.withMemory (h.memory.setWord a v) := by
  rw [store] at done
  split_ifs at done
  exact (Option.some.inj done).symm

theorem setHeader_withMemory {magic prev : Nat} (done : h.setHeader a magic n prev = some h₁) : ∃ m, h₁ = h.withMemory m := by
  simp only [setHeader, setMagic, setSize, Heap.setPrev, Option.bind_eq_bind, Option.bind_eq_some_iff] at done
  obtain ⟨h₂, first, h₃, second, third⟩ := done
  rw [store_withMemory third, store_withMemory second, store_withMemory first]
  exact ⟨_, rfl⟩

theorem linkNext_withMemory (done : h.linkNext a = some h₁) : ∃ m, h₁ = h.withMemory m := by
  obtain ⟨n, -, done⟩ := Option.bind_eq_some_iff.mp done
  split_ifs at done
  · exact ⟨_, store_withMemory done⟩
  · cases done
    exact ⟨h.memory, rfl⟩

theorem splitRegion_withMemory (done : h.splitRegion a size = some h₁) : ∃ m, h₁ = h.withMemory m := by
  obtain ⟨old, -, done⟩ := Option.bind_eq_some_iff.mp done
  dsimp only at done
  split_ifs at done
  · obtain ⟨h₂, made, done⟩ := Option.bind_eq_some_iff.mp done
    obtain ⟨h₃, linked, done⟩ := Option.bind_eq_some_iff.mp done
    obtain ⟨m, rfl⟩ := setHeader_withMemory made
    obtain ⟨m', rfl⟩ := linkNext_withMemory linked
    rw [setSize] at done
    rw [store_withMemory done]
    exact ⟨_, rfl⟩
  · cases done
    exact ⟨h.memory, rfl⟩

theorem heapExpand_grown {frames : Frames} {last : Nat} (positive : 0 < n)
    (done : h.heapExpand n last (some frames) = some (false, h₁)) : ∃ m, h₁ = (h.grown n frames).withMemory m := by
  rw [Heap.heapExpand, allocPages, if_neg positive.ne'] at done
  split_ifs at done
  · cases done
  · obtain ⟨magic, -, done⟩ := Option.bind_eq_some_iff.mp done
    split_ifs at done
    · obtain ⟨old, -, done⟩ := Option.bind_eq_some_iff.mp done
      obtain ⟨h₂, stored, done⟩ := Option.bind_eq_some_iff.mp done
      cases done
      exact ⟨_, store_withMemory stored⟩
    · obtain ⟨h₂, stored, done⟩ := Option.bind_eq_some_iff.mp done
      cases done
      exact setHeader_withMemory stored

theorem heapAlloc_null (search : h.findHeader size false pages = some (none, h₁)) :
    h.heapAlloc size false pages = some (none, h₁) := by
  rw [heapAlloc, search]
  rfl

theorem heapAlloc_some (search : h.findHeader size false pages = some (some b, h₁)) :
    h.heapAlloc size false pages = (h₁.splitRegion b (u32 size)).bind fun h₂ =>
      (h₂.setMagic b heapUsedMagic).bind fun h₃ => some (some (u32 (b + headerSize)), h₃) := by
  rw [heapAlloc, search]
  rfl

/-- The call returns the block behind header `b`: in use, inside the heap, of at least `size` bytes, and
apart from every region that was in use. -/
def Serves (h : Heap) (l : List Region) (size b : Nat) (h' : Heap) : Prop :=
  ∃ l' r, h'.WellFormed l' ∧ (b, r) ∈ layout h'.firstHeader l' ∧ r.used = true ∧ size ≤ r.size ∧
    h.heap ≤ b ∧ b + headerSize + r.size ≤ h'.end_ ∧
    ∀ c q, (c, q) ∈ layout h.firstHeader l → q.used = true →
      c + headerSize + q.size ≤ b ∨ b + headerSize + r.size ≤ c

def Grows (h : Heap) (l : List Region) (size : Nat) (pages : Pages) : Prop :=
  ∃ b h', h.heapAlloc size false pages = some (some (b + headerSize), h') ∧ h.Serves l size b h'

theorem WellFormed.heapAlloc_last (wf : h.WellFormed (front ++ [r])) (noFit : NoFit (front ++ [r]) size)
    (fits : size + headerSize < 2 ^ 32) (done : h.heapAlloc size false pages = some (some (b + headerSize), h₁)) :
    b = endOf h.firstHeader front := by
  have bounds := wf.bounds
  have small := wf.small
  have header : headerSize = 12 := rfl
  cases search : h.findHeader size false pages with
  | none =>
      rw [heapAlloc, search] at done
      cases done
  | some found =>
      obtain ⟨found, h₂⟩ := found
      cases found with
      | none =>
          rw [heapAlloc_null search] at done
          cases done
      | some a =>
          have last := wf.findHeader_last noFit fits search
          rw [heapAlloc_some search] at done
          simp only [Option.bind_eq_some_iff, Option.some.injEq, Prod.mk.injEq] at done
          obtain ⟨h₃, -, h₄, -, same, -⟩ := done
          rw [u32_of_lt (by omega)] at same
          omega

theorem heapAlloc_withMemory {h' : Heap} {addr : Nat} (search : h.findHeader size false pages = some (some b, h₁))
    (done : h.heapAlloc size false pages = some (some addr, h')) : ∃ m, h' = h₁.withMemory m := by
  rw [heapAlloc_some search] at done
  obtain ⟨h₂, split, done⟩ := Option.bind_eq_some_iff.mp done
  obtain ⟨h₃, marked, done⟩ := Option.bind_eq_some_iff.mp done
  cases done
  obtain ⟨m, rfl⟩ := splitRegion_withMemory split
  rw [setMagic] at marked
  rw [store_withMemory marked]
  exact ⟨_, rfl⟩

theorem WellFormed.backed (wf : h.WellFormed (front ++ [⟨f, false⟩])) (noFit : NoFit (front ++ [⟨f, false⟩]) size)
    (fits : size + headerSize < 2 ^ 32) (room : h.end_ + pagesNeeded size (some ⟨f, false⟩) * pageSize ≤ h.maxAddr)
    (address : h.maxAddr < 2 ^ 32) (some_ : pagesNeeded size (some ⟨f, false⟩) ≠ 0) {frames : Frames} {addr : Nat} {h' : Heap}
    (done : h.heapAlloc size false (some frames) = some (some addr, h')) (mapped : h'.Mapped) :
    h.Backed (pagesNeeded size (some ⟨f, false⟩)) (some frames) := by
  have eq : h.findHeader size false (some frames) = _ := wf.findHeader_eq noFit fits room address
  generalize pagesNeeded size (some ⟨f, false⟩) = n at *
  have positive : 0 < n := Nat.pos_of_ne_zero some_
  by_contra gap
  have some_missing : ¬ (h.end_ % pageSize = 0 ∧ ∀ i < n, frames.mapped i = true) := fun all => gap ⟨all.1, by
    rintro _ ⟨⟩
    exact all.2⟩
  obtain ⟨a, low, high, missing⟩ := covers_gap positive some_missing
  cases search : h.findHeader size false (some frames) with
  | none =>
      rw [heapAlloc, search] at done
      cases done
  | some found =>
      obtain ⟨found, h₁⟩ := found
      cases found with
      | none =>
          rw [heapAlloc_null search] at done
          cases done
      | some b =>
          obtain ⟨m, rfl⟩ := heapAlloc_withMemory search done
          rw [eq] at search
          obtain ⟨⟨err, h₂⟩, expanded, found⟩ := Option.bind_eq_some_iff.mp search
          cases err with
          | true => cases found
          | false =>
              cases found
              obtain ⟨m', rfl⟩ := heapExpand_grown positive expanded
              have first : h.firstHeader ≤ h.end_ := by
                have bounds := wf.bounds
                omega
              have endsAt : (h.grown n frames).end_ = h.end_ + n * pageSize := u32_of_lt (by omega)
              have absent : (h.grown n frames).unmapped a = true := by simp [Heap.grown, missing, low]
              cases absent.symm.trans (mapped a (first.trans low) (high.trans_eq endsAt.symm))

/-- A call that has to grow the heap does so if and only if the last region is free and, with the pages
that are added to it, holds the block and one more header, and these pages are mapped behind the old ones. -/
theorem grows_iff (wf : h.WellFormed l) (fits : size + headerSize < 2 ^ 32) (noFit : NoFit l size)
    (grow : h.MayGrow l size pages) :
    h.Grows l size pages ↔ ∃ f, l.getLast? = some ⟨f, false⟩ ∧
      size + headerSize ≤ f + pagesNeeded size (some ⟨f, false⟩) * pageSize ∧
      h.Backed (pagesNeeded size (some ⟨f, false⟩)) pages := by
  have page : pageSize = 4096 := rfl
  have header : headerSize = 12 := rfl
  obtain ⟨room, address, supplied⟩ := grow
  obtain ⟨frames, rfl⟩ := Option.isSome_iff_exists.mp supplied
  rcases List.eq_nil_or_concat l with rfl | ⟨front, ⟨f, used⟩, rfl⟩
  · -- not even the first header is there
    have none : h.heapAlloc size false (some frames) = none := by
      have ends : h.firstHeader = h.end_ := wf.ends
      have fuel : 2 ^ 32 = 4294967295 + 1 := rfl
      rw [heapAlloc, Heap.findHeader, fuel, Heap.findLoop, if_neg (by omega)]
      simp [ends]
    constructor
    · rintro ⟨b, h', done, -⟩
      rw [none] at done
      cases done
    · rintro ⟨f, last, -⟩
      cases last
  rw [List.concat_eq_append] at *
  rw [List.getLast?_concat] at *
  cases used with
  | true =>
      refine ⟨?_, fun ⟨f, last, _⟩ => by cases last⟩
      rintro ⟨b, h', done, serves⟩
      obtain ⟨l', r, -, -, -, -, -, -, apart⟩ := serves
      have last := wf.heapAlloc_last noFit fits done
      -- the block is the region that was in use
      have := apart b ⟨f, true⟩ (by rw [last, layout_append]; simp) rfl
      omega
  | false =>
      have less : f < size + headerSize := noFit ⟨f, false⟩ (by simp) rfl
      have enough : size ≤ f + pagesNeeded size (some ⟨f, false⟩) * pageSize := by
        rw [pagesNeeded, page]
        omega
      have asked : u32 size = size := u32_of_lt (by omega)
      by_cases none : pagesNeeded size (some ⟨f, false⟩) = 0
      · have refused : h.heapAlloc size false (some frames) = some (.none, h) := by
          refine heapAlloc_null ?_
          rw [wf.findHeader_eq noFit fits room address, none, Heap.heapExpand, if_neg (by rw [u32_of_lt (by omega)]; omega)]
          rfl
        constructor
        · rintro ⟨b, h', done, -⟩
          rw [refused] at done
          cases done
        · rintro ⟨g, last, long, -⟩
          cases last
          rw [none] at long
          omega
      constructor
      · rintro ⟨b, h', done, l', r, wf', -⟩
        have backed := wf.backed noFit fits room address none done wf'.mapped
        obtain ⟨h₁, found, wf₁, heap, ends⟩ := wf.findHeader noFit fits room address none backed.aligned (backed.mapped frames rfl)
        have first : h₁.firstHeader = h.firstHeader := by rw [firstHeader, heap, firstHeader]
        refine ⟨f, rfl, ?_, backed⟩
        by_contra short
        rw [heapAlloc_some found, asked, ← first, wf₁.splitRegion_none (Nat.not_le.mp short) enough] at done
        cases done
      · rintro ⟨g, last, long, backed⟩
        cases last
        obtain ⟨h₁, found, wf₁, heap, ends⟩ := wf.findHeader noFit fits room address none backed.aligned (backed.mapped frames rfl)
        have first : h₁.firstHeader = h.firstHeader := by rw [firstHeader, heap, firstHeader]
        have alloc := heapAlloc_some found
        rw [asked, ← first] at alloc
        generalize pagesNeeded size (some ⟨f, false⟩) = n at *
        obtain ⟨m, split, wf₂⟩ := wf₁.splitRegion long
        obtain ⟨s, rest, into, large⟩ := splitInto_eq (f := f + n * pageSize) enough
        rw [into, List.append_assoc, List.cons_append] at wf₂
        obtain ⟨m', marked, wf₃, -⟩ := wf₂.setMagic (u := true)
        obtain ⟨low, high⟩ := wf₃.bounds
        have small := wf₃.small
        simp only [withMemory_firstHeader, withMemory_end, withMemory_withMemory] at low high small marked wf₃
        refine ⟨endOf h₁.firstHeader front, h₁.withMemory m', ?_, _, ⟨s, true⟩, wf₃, ?_, rfl, large, ?_, high, ?_⟩
        · rw [alloc, split, Option.bind_some]
          simp only [Region.magic, if_true] at marked
          rw [marked, Option.bind_some, u32_of_lt (by omega)]
        · simp
        · have base : h.heap ≤ h₁.firstHeader := by rw [firstHeader, heap]; exact Nat.le_add_right _ _
          omega
        · intro c q member inUse
          rw [layout_append] at member
          rcases List.mem_append.mp member with before | isLast
          · have := (layout_bounds before).2
            rw [first]
            omega
          · cases List.mem_singleton.mp isLast
            cases inUse

/-! ## A heap of one page -/

section OnePage

-- the heap at 8192, its one region as given
def onePage (r : Region) : Heap :=
  ⟨8192, 12288, 73728, 4096, (Bytes.setWord (fun _ => 0) 8206 r.magic).setWord 8210 r.size, fun _ => false⟩

-- empty pages, the first `n` of which are mapped
def newPages (n : Nat) : Frames := ⟨fun _ => 0, fun i => decide (i < n)⟩

theorem onePage_wellFormed {used : Bool} : (onePage ⟨4070, used⟩).WellFormed [⟨4070, used⟩] := by
  refine ⟨⟨?_, ?_, ?_, trivial⟩, rfl, by simp [onePage], fun _ _ _ => rfl⟩ <;> cases used <;> decide

-- the headers of `l`, from `a` on
def headersOf (m : Bytes) (a prev : Nat) : List Region → Bytes
  | [] => m
  | r :: l => headersOf (((m.setWord a r.magic).setWord (a + 4) r.size).setWord (a + 8) prev) (a + 12 + r.size) a l

theorem headersOf_of_lt {m : Bytes} {a prev i : Nat} (before : i < a) : headersOf m a prev l i = m i := by
  induction l generalizing m a prev with
  | nil => rfl
  | cons r l ih =>
      rw [headersOf, ih (by omega), Bytes.setWord_of_outside (by omega), Bytes.setWord_of_outside (by omega),
        Bytes.setWord_of_outside (by omega)]

theorem tiles_headersOf {m : Bytes} {a prev : Nat} (small : endOf a l < 2 ^ 32) (prevSmall : prev < 2 ^ 32) :
    Tiles (headersOf m a prev l) a prev l := by
  induction l generalizing m a prev with
  | nil => trivial
  | cons r l ih =>
      rw [endOf_cons] at small
      have inside := le_endOf (a + 12 + r.size) l
      refine ⟨?_, ?_, ?_, ih small (by omega)⟩
      · rw [headersOf, Bytes.word_congr fun i _ upper => headersOf_of_lt (by omega), Bytes.word_setWord_of_outside (by omega),
          Bytes.word_setWord_of_outside (by omega), Bytes.word_setWord (Region.magic_lt r)]
      · rw [headersOf, Bytes.word_congr fun i _ upper => headersOf_of_lt (by omega), Bytes.word_setWord_of_outside (by omega),
          Bytes.word_setWord (by omega)]
      · rw [headersOf, Bytes.word_congr fun i _ upper => headersOf_of_lt (by omega), Bytes.word_setWord prevSmall]

-- the same page, with the regions `l`
def onePageOf (l : List Region) : Heap := ⟨8192, 12288, 73728, 4096, headersOf (fun _ => 0) 8206 0 l, fun _ => false⟩

theorem onePageOf_wellFormed (ends : endOf 8206 l = 12288) : (onePageOf l).WellFormed l :=
  ⟨tiles_headersOf (by simp [ends]) (by decide), ends, by simp [onePageOf], fun _ _ _ => rfl⟩

theorem onePage_mayGrow {r : Region} {size : Nat} {frames : Frames} (small : size ≤ 5000) :
    (onePage r).MayGrow [r] size (some frames) := by
  refine ⟨?_, by simp [onePage], rfl⟩
  obtain ⟨f, used⟩ := r
  cases used <;> simp only [onePage, List.getLast?_singleton, pagesNeeded, pageSize, headerSize] <;> omega

/-- With its page the block is served, and without it not. -/
theorem grows_iff_free_page : (onePage ⟨4070, false⟩).Grows [⟨4070, false⟩] 5000 (some (newPages 1)) ∧
    ¬ (onePage ⟨4070, false⟩).Grows [⟨4070, false⟩] 5000 (some (newPages 0)) := by
  have count : pagesNeeded 5000 (some ⟨4070, false⟩) = 1 := by decide
  constructor
  · refine (grows_iff onePage_wellFormed (by decide) (by simp [NoFit, headerSize]) (onePage_mayGrow le_rfl)).mpr
      ⟨4070, rfl, by decide, rfl, ?_⟩
    rintro _ ⟨⟩ i inside
    exact decide_eq_true (count ▸ inside)
  · rw [grows_iff onePage_wellFormed (by decide) (by simp [NoFit, headerSize]) (onePage_mayGrow le_rfl)]
    rintro ⟨f, last, -, backed⟩
    cases last
    cases backed.mapped _ rfl 0 (by rw [count]; exact Nat.one_pos)

/-- Where the page is in use, it is handed out again. -/
theorem used_page_again :
    ¬ ∀ (h : Heap) (l : List Region) (size : Nat) (pages : Pages), h.WellFormed l → size + headerSize < 2 ^ 32 →
        NoFit l size → h.MayGrow l size pages → h.Grows l size pages := by
  intro always
  obtain ⟨b, h', done, l', r, -, -, -, -, -, -, apart⟩ := always (onePage ⟨4070, true⟩) [⟨4070, true⟩] 10 (some (newPages 1))
    onePage_wellFormed (by decide) (by simp [NoFit]) (onePage_mayGrow (by decide))
  have again : ((onePage ⟨4070, true⟩).heapAlloc 10 false (some (newPages 1))).any (fun r => r.1 == some 8218) = true := by
    decide
  rw [done, Option.any_some, beq_iff_eq] at again
  have place : b = 8206 := by
    rw [headerSize] at again
    simpa using again
  have := apart 8206 ⟨4070, true⟩ (by simp [onePage, firstHeader, heapSize]) rfl
  rw [place, headerSize] at this
  omega

end OnePage
end Heap
end Kerosene.Mem
