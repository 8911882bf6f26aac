import Kerosene.Mem.HeapRefusal
import Kerosene.Mem.HeapSearch

/-!
# Blocks that start a page

The header of such a block is written where the gap before the page ends, which may be over the header of
the region it is taken from.
-/

namespace Kerosene.Mem
open Lib

variable {m m' : Bytes} {a b d p size v : Nat}

/-! ## Bytes of words -/

theorem byte_of_word (m : Bytes) {i : Nat} (low : a ≤ i) (high : i < a + 4) :
    m i = UInt8.ofNat (m.word a / 2 ^ (8 * (i - a))) := by
  have same := congrFun (Bytes.setWord_word m a) i
  rw [Bytes.setWord, if_pos ⟨low, high⟩] at same
  exact same.symm

theorem word_lt (m : Bytes) (a : Nat) : m.word a < 2 ^ 32 := by
  have first := (m a).toNat_lt
  have second := (m (a + 1)).toNat_lt
  have third := (m (a + 2)).toNat_lt
  have fourth := (m (a + 3)).toNat_lt
  rw [Bytes.word]
  omega

theorem setWord_congr {i : Nat} (same : m' i = m i) : m'.setWord a v i = m.setWord a v i := by
  change (if _ then _ else m' i) = if _ then _ else m i
  rw [same]

/-- The `prev` field of the header at `b`, after the magic and the size of one at `b + d`. -/
def survivingPrev (m : Bytes) (b d size : Nat) : Nat :=
  ((m.setWord (b + d) heapUsedMagic).setWord (b + d + 4) size).word (b + 8)

theorem survivingPrev_lt : survivingPrev m b d size < 2 ^ 32 := word_lt _ _

theorem survivingPrev_congr (same : m'.word (b + 8) = m.word (b + 8)) :
    survivingPrev m' b d size = survivingPrev m b d size := by
  refine Bytes.word_congr fun i low high => ?_
  simp only [Bytes.setWord]
  rw [byte_of_word m' low high, same, ← byte_of_word m low high]

theorem survivingPrev_of_wide (wide : 12 ≤ d) : survivingPrev m b d size = m.word (b + 8) := by
  rw [survivingPrev, Bytes.word_setWord_of_outside (by omega), Bytes.word_setWord_of_outside (by omega)]

namespace Heap
variable {h h' : Heap} {pages : Pages}

/-! ## `moveHeader` -/

-- up to the link of what follows the block
def carved (m : Bytes) (b d size : Nat) : Bytes :=
  (((m.setWord (b + d) heapUsedMagic).setWord (b + d + 4) size).setWord b heapFreeMagic).setWord (b + d + 12 + size + 8) (b + d)

theorem carved_prev (positive : 0 < d) : (carved m b d size).word (b + 8) = survivingPrev m b d size := by
  rw [carved, Bytes.word_setWord_of_outside (by omega), Bytes.word_setWord_of_outside (by omega), survivingPrev]

-- the gap as a region
def gapped (m : Bytes) (b d size : Nat) : Bytes := ((carved m b d size).setWord (b + 4) (d - 12)).setWord (b + d + 8) b

-- the gap as a part of the region at `p`
def merged (m : Bytes) (b d size p : Nat) : Bytes :=
  ((carved m b d size).setWord (p + 4) (u32 ((carved m b d size).word (p + 4) + d))).setWord (b + d + 8) p

theorem moveHeader_zero (small : b + 12 < 2 ^ 32) : h.moveHeader b (b + 12) size = some (b, h) := by
  have newh : u32Sub (b + 12) headerSize = b := u32Sub_of_le small (by rw [headerSize]; omega)
  have diff : u32Sub b b = 0 := (u32Sub_of_le (by omega) le_rfl).trans (Nat.sub_self b)
  rw [moveHeader, newh, diff]
  rfl

section
variable (m : Bytes) (mapped : h.Mapped) (low : h.firstHeader ≤ b) (positive : 0 < d) (room : b + d + 12 + size + 12 ≤ h.end_)
  (small : h.end_ < 2 ^ 32)
include mapped low positive room small

theorem moveHeader_eq : (h.withMemory m).moveHeader b (b + 12 + d) size =
    if 16 ≤ d then some (b + d, h.withMemory (gapped m b d size))
    else if h.firstHeader ≤ survivingPrev m b d size + 4 ∧ survivingPrev m b d size + 8 ≤ h.end_ then
      some (b + d, h.withMemory (merged m b d size (survivingPrev m b d size)))
    else none := by
  have put (m : Bytes) {a : Nat} (v : Nat) (above : h.firstHeader ≤ a) (below : a + 4 ≤ h.end_) :
      (h.withMemory m).store a v = some (h.withMemory (m.setWord a v)) := store_eq mapped.withMemory above below
  have get (m : Bytes) {a : Nat} (above : h.firstHeader ≤ a) (below : a + 4 ≤ h.end_) :
      (h.withMemory m).load a = some (m.word a) := load_eq mapped.withMemory above below
  have newh : u32Sub (b + 12 + d) headerSize = b + d := by
    rw [u32Sub_of_le (by omega) (by rw [headerSize]; omega), headerSize]
    omega
  have diff : u32Sub (b + d) b = d := by
    rw [u32Sub_of_le (by omega) (by omega)]
    omega
  have region : headerSize + minRegionSize = 16 := rfl
  -- the size of the new header is what was just written
  have written :
      (((m.setWord (b + d) heapUsedMagic).setWord (b + d + 4) size).setWord b heapFreeMagic).word (b + d + 4) = size := by
    rw [Bytes.word_setWord_of_outside (by omega), Bytes.word_setWord (by omega)]
  have next : u32 (b + d + headerSize + size) = b + d + 12 + size := u32_of_lt (by rw [headerSize]; omega)
  have linked :
      (h.withMemory (((m.setWord (b + d) heapUsedMagic).setWord (b + d + 4) size).setWord b heapFreeMagic)).linkNext (b + d) =
        some (h.withMemory (carved m b d size)) := by
    rw [linkNext, nextHeader, Heap.size, get _ (by omega) (by omega), written]
    simp only [Option.bind_eq_bind, Option.bind_some, Option.pure_def, next]
    rw [withMemory_end, if_pos (by omega), Heap.setPrev, put _ _ (by omega) (by omega)]
    rfl
  have back : (carved m b d size).word (b + 8) = survivingPrev m b d size := carved_prev positive
  rw [moveHeader, newh, diff, if_pos positive, setMagic, put _ _ (by omega) (by omega), Option.bind_eq_bind, Option.bind_some,
    setSize, put _ _ (by omega) (by omega), Option.bind_some, setMagic, put _ _ (by omega) (by omega), Option.bind_some, linked,
    Option.bind_some, region]
  by_cases wide : 16 ≤ d
  · have gap : u32Sub d headerSize = d - 12 := u32Sub_of_le (by omega) (by rw [headerSize]; omega)
    rw [if_pos wide, if_pos wide, setSize, put _ _ (by omega) (by omega), Option.bind_some, Heap.setPrev,
      put _ _ (by omega) (by omega), Option.bind_some, gap]
    rfl
  · rw [if_neg wide, if_neg wide, Heap.prev, get _ (by omega) (by omega), Option.bind_eq_bind, Option.bind_some, back, Heap.size]
    split_ifs with inside
    · rw [get _ (by omega) (by omega), Option.bind_some, setSize, put _ _ (by omega) (by omega),
        Option.bind_some, Heap.setPrev, put _ _ (by omega) (by omega), Option.bind_some]
      rfl
    · have outside : (h.withMemory (carved m b d size)).load (survivingPrev m b d size + 4) = none :=
        if_neg fun all => inside ⟨all.1, all.2.1⟩
      rw [outside]
      rfl

end

/-! ## What is carved -/

theorem carved_of_before {i : Nat} (before : i < b) : carved m b d size i = m i := by
  rw [carved, Bytes.setWord_of_outside (by omega), Bytes.setWord_of_outside (by omega), Bytes.setWord_of_outside (by omega),
    Bytes.setWord_of_outside (by omega)]

theorem carved_of_behind {i : Nat} (behind : b + d + 12 ≤ i) :
    carved m b d size i = m.setWord (b + d + 12 + size + 8) (b + d) i := by
  refine setWord_congr ?_
  rw [Bytes.setWord_of_outside (by omega), Bytes.setWord_of_outside (by omega), Bytes.setWord_of_outside (by omega)]

theorem carved_magic (apart : 4 ≤ d) : (carved m b d size).word (b + d) = heapUsedMagic := by
  rw [carved, Bytes.word_setWord_of_outside (by omega), Bytes.word_setWord_of_outside (by omega),
    Bytes.word_setWord_of_outside (by omega), Bytes.word_setWord (by decide)]

theorem carved_size (small : size < 2 ^ 32) : (carved m b d size).word (b + d + 4) = size := by
  rw [carved, Bytes.word_setWord_of_outside (by omega), Bytes.word_setWord_of_outside (by omega), Bytes.word_setWord small]

section
variable {front rest : List Region} {q z : Region} (place : endOf h.firstHeader front = b)
  (before : Tiles m h.firstHeader 0 front) (after : Tiles m (b + d + 12 + size) v (z :: rest))
  (ends : endOf (b + d + 12 + size) (z :: rest) = h.end_) (small : h.end_ < 2 ^ 32) (mapped : h.Mapped)

include after ends small in
theorem carved_after : Tiles (carved m b d size) (b + d + 12 + size) (b + d) (z :: rest) := by
  have := le_endOf (b + d + 12 + size) (z :: rest)
  exact (after.setPrev (v := b + d) (by omega)).congr fun i low _ => carved_of_behind (by omega)

include place before after ends small mapped

theorem gapped_wellFormed (wide : 16 ≤ d) (prev : m.word (b + 8) = lastOf h.firstHeader 0 front) :
    (h.withMemory (gapped m b d size)).WellFormed (front ++ ⟨d - 12, false⟩ :: ⟨size, true⟩ :: z :: rest) := by
  have linked := carved_after after ends small
  have last := le_endOf (b + d + 12 + size) (z :: rest)
  have outside (i : Nat) (apart : (i < b + 4 ∨ b + 8 ≤ i) ∧ (i < b + d + 8 ∨ b + d + 12 ≤ i)) :
      gapped m b d size i = carved m b d size i := by
    rw [gapped, Bytes.setWord_of_outside (by omega), Bytes.setWord_of_outside (by omega)]
  have second : b + 12 + (d - 12) = b + d := by omega
  refine ⟨?_, ?_, small, mapped.withMemory⟩
  · rw [withMemory_memory, withMemory_firstHeader]
    refine tiles_append.mpr ⟨before.congr fun i _ below => ?_, ?_⟩
    · rw [outside i (by omega), carved_of_before (by omega)]
    rw [place, tiles_cons, tiles_cons, second]
    refine ⟨?_, ?_, ?_, ?_, ?_, ?_, linked.congr fun i above _ => outside i (by omega)⟩
    · rw [Bytes.word_congr fun i low high => outside i (by omega), carved, Bytes.word_setWord_of_outside (by omega),
        Bytes.word_setWord (by decide)]
      rfl
    · rw [gapped, Bytes.word_setWord_of_outside (by omega), Bytes.word_setWord (by omega)]
    · rw [Bytes.word_congr fun i low high => outside i (by omega), carved_prev (by omega), survivingPrev_of_wide (by omega), prev]
    · rw [Bytes.word_congr fun i low high => outside i (by omega), carved_magic (by omega)]
      rfl
    · rw [Bytes.word_congr fun i low high => outside i (by omega), carved_size (by omega)]
    · rw [gapped, Bytes.word_setWord (by omega)]
  · rw [withMemory_firstHeader, withMemory_end, endOf_append, place, endOf_cons, endOf_cons, second]
    exact ends

theorem merged_wellFormed {fr : List Region} (apart : 4 ≤ d) (split : front = fr ++ [q]) :
    (h.withMemory (merged m b d size (endOf h.firstHeader fr))).WellFormed
      (fr ++ ⟨q.size + d, q.used⟩ :: ⟨size, true⟩ :: z :: rest) := by
  subst split
  have linked := carved_after after ends small
  have last := le_endOf (b + d + 12 + size) (z :: rest)
  obtain ⟨front, magic, sizes, prev, -⟩ := tiles_append.mp before
  rw [endOf_append, endOf_cons, endOf_nil] at place
  have low := le_endOf h.firstHeader fr
  generalize here : endOf h.firstHeader fr = p at *
  have grown : u32 ((carved m b d size).word (p + 4) + d) = q.size + d := by
    rw [Bytes.word_congr fun i low high => carved_of_before (by omega), sizes, u32_of_lt (by omega)]
  have outside (i : Nat) (apart : (i < p + 4 ∨ p + 8 ≤ i) ∧ (i < b + d + 8 ∨ b + d + 12 ≤ i)) :
      merged m b d size p i = carved m b d size i := by
    rw [merged, Bytes.setWord_of_outside (by omega), Bytes.setWord_of_outside (by omega)]
  have second : p + 12 + (q.size + d) = b + d := by omega
  refine ⟨?_, ?_, small, mapped.withMemory⟩
  · rw [withMemory_memory, withMemory_firstHeader]
    refine tiles_append.mpr ⟨front.congr fun i _ below => ?_, ?_⟩
    · rw [outside i (by omega), carved_of_before (by omega)]
    rw [tiles_cons, tiles_cons, here, second]
    refine ⟨?_, ?_, ?_, ?_, ?_, ?_, linked.congr fun i above _ => outside i (by omega)⟩
    · rw [Bytes.word_congr fun i low high => outside i (by omega), Bytes.word_congr fun i low high => carved_of_before (by omega),
        magic]
      rfl
    · rw [merged, Bytes.word_setWord_of_outside (by omega), Bytes.word_setWord (by rw [grown]; omega), grown]
    · rw [Bytes.word_congr fun i low high => outside i (by omega), Bytes.word_congr fun i low high => carved_of_before (by omega),
        prev]
    · rw [Bytes.word_congr fun i low high => outside i (by omega), carved_magic (by omega)]
      rfl
    · rw [Bytes.word_congr fun i low high => outside i (by omega), carved_size (by omega)]
    · rw [merged, Bytes.word_setWord (by omega)]
  · rw [withMemory_firstHeader, withMemory_end, endOf_append, here, endOf_cons, endOf_cons, second]
    exact ends

end

/-! ## The call -/

theorem alignOffset_spec (a : Nat) : (a + alignOffset a) % pageSize = 0 := by
  rw [alignOffset, pageSize]
  split_ifs <;> omega

theorem alignOffset_least (aligned : a % pageSize = 0) (le : b ≤ a) : b + alignOffset b ≤ a := by
  rw [alignOffset]
  rw [pageSize] at *
  split_ifs <;> omega

theorem heapAlloc_found {final : Option Nat}
    (found : h.findLoop (u32 (size + headerSize)) true (2 ^ 32) h.firstHeader none = some (b, final))
    (inside : b < h.end_) (small : b + 12 + d < 2 ^ 32) (fits : size + d < 2 ^ 32) (offset : alignOffset (b + headerSize) = d) :
    h.heapAlloc size true pages = (h.splitRegion b (size + d)).bind fun h₁ => (h₁.setMagic b heapUsedMagic).bind fun h₂ =>
      (h₂.moveHeader b (b + 12 + d) size).bind fun (header, h₃) => some (some (u32 (header + headerSize)), h₃) := by
  have search : h.findHeader size true pages = some (some b, h) := by
    rw [findHeader, found, Option.bind_eq_bind, Option.bind_some]
    exact if_pos inside
  have addr : u32 (b + headerSize) = b + headerSize := u32_of_lt (by rw [headerSize]; omega)
  have moved : u32 (b + headerSize + d) = b + 12 + d := u32_of_lt small
  rw [heapAlloc, search]
  simp only [Option.bind_eq_bind, Option.bind_some, if_true, addr, offset, u32_of_lt fits, moved]
  rfl

section
variable {front back : List Region} {f : Nat} (wf : h.WellFormed (front ++ ⟨f, false⟩ :: back))
  (place : endOf h.firstHeader front = b)
include wf place

theorem readied_split {t : Nat} (room : t + 16 ≤ f) : ∃ m, ((h.splitRegion b t).bind fun h₁ => h₁.setMagic b heapUsedMagic) =
    some (h.withMemory m) ∧ (h.withMemory m).WellFormed (front ++ ⟨t, true⟩ :: ⟨f - t - 12, false⟩ :: back) := by
  subst place
  have taken : t + headerSize ≤ f := by rw [headerSize]; omega
  obtain ⟨m, split, wf₁⟩ := wf.splitRegion taken
  rw [splitInto, if_neg (by omega), List.append_assoc, List.cons_append, List.singleton_append] at wf₁
  obtain ⟨m', marked, wf₂, -⟩ := wf₁.setMagic (u := true)
  refine ⟨m', ?_, wf₂⟩
  rw [split, Option.bind_some]
  exact marked

theorem readied_whole {t : Nat} (room : t + 12 ≤ f) (few : f < t + 16) : ∃ m,
    ((h.splitRegion b t).bind fun h₁ => h₁.setMagic b heapUsedMagic) = some (h.withMemory m) ∧
      (h.withMemory m).WellFormed (front ++ ⟨f, true⟩ :: back) ∧ ∀ i, i < b ∨ b + 12 ≤ i → m i = h.memory i := by
  subst place
  have header := wf.headerAt
  have bounds := wf.bounds
  have small := wf.small
  dsimp only at bounds
  have spare : u32Sub (u32Sub f t) headerSize = f - t - 12 := by
    have taken : u32Sub f t = f - t := u32Sub_of_le (by omega) (by omega)
    rw [taken]
    exact u32Sub_of_le (by omega) (by rw [headerSize]; omega)
  have whole : h.splitRegion (endOf h.firstHeader front) t = some h := by
    simp only [Heap.splitRegion, header.size, spare, Option.bind_eq_bind, Option.bind_some]
    exact if_neg (by rw [minRegionSize]; omega)
  obtain ⟨m, marked, wf₁, kept⟩ := wf.setMagic (u := true)
  refine ⟨m, ?_, wf₁, kept⟩
  rw [whole, Option.bind_some]
  exact marked

end

/-- The call returns a page boundary in the region at `b`, and the block there is in use. The regions that were in
use still are, and only the one before `b` may have grown, into the gap. -/
def ServesAligned (h : Heap) (l : List Region) (b f size : Nat) (pages : Pages) : Prop :=
  ∃ a h' l', h.heapAlloc size true pages = some (some a, h') ∧ a % pageSize = 0 ∧
    b + headerSize ≤ a ∧ a + size ≤ b + headerSize + f ∧ h'.heap = h.heap ∧ h'.end_ = h.end_ ∧ h'.WellFormed l' ∧
    (∃ r, (a - headerSize, r) ∈ layout h'.firstHeader l' ∧ r.used = true ∧ size ≤ r.size) ∧
    ∀ c q, (c, q) ∈ layout h.firstHeader l → q.used = true → ∃ q', (c, q') ∈ layout h'.firstHeader l' ∧ q'.used = true ∧
      q.size ≤ q'.size ∧ (q'.size = q.size ∨ c + headerSize + q.size = b ∧ c + headerSize + q'.size ≤ a - headerSize)

/-- The bytes behind the block read as the header of a region that ends with the heap. -/
def StaleHeader (h : Heap) (x : Nat) : Prop :=
  (h.memory.word x = heapFreeMagic ∨ h.memory.word x = heapUsedMagic) ∧ x + 12 + h.memory.word (x + 4) = h.end_

/-- Nothing wraps. A block that does not start where the region does leaves the old `prev` field readable, and enough
behind it for another region. -/
def Placeable (h : Heap) (front back : List Region) (f size : Nat) : Prop :=
  let b := endOf h.firstHeader front
  let d := alignOffset (b + headerSize)
  size + headerSize + d < 2 ^ 32 ∧
    (d = 0 ∨ 4 ≤ d ∧ (d < 16 → survivingPrev h.memory b d size = lastOf h.firstHeader 0 front) ∧
      (size + d + headerSize + minRegionSize ≤ f ∨ back = [] ∧ h.StaleHeader (b + d + headerSize + size)))

section
variable {front back : List Region} {f : Nat} {final : Option Nat} (wf : h.WellFormed (front ++ ⟨f, false⟩ :: back))
  (place : endOf h.firstHeader front = b) (offset : alignOffset (b + headerSize) = d) (room : size + d + 12 ≤ f)
  (found : h.findLoop (u32 (size + headerSize)) true (2 ^ 32) h.firstHeader none = some (b, final))
include wf place offset room found

theorem heapAlloc_readied {m : Bytes}
    (readied : ((h.splitRegion b (size + d)).bind fun h₁ => h₁.setMagic b heapUsedMagic) = some (h.withMemory m)) :
    h.heapAlloc size true pages =
      ((h.withMemory m).moveHeader b (b + 12 + d) size).bind fun (header, h₃) => some (some (u32 (header + headerSize)), h₃) := by
  have bounds := wf.bounds
  have small := wf.small
  have page := alignOffset_lt (b + headerSize)
  rw [place] at bounds
  dsimp only at bounds
  rw [heapAlloc_found found (by omega) (by omega) (by omega) offset, ← Option.bind_assoc, readied, Option.bind_some]

omit wf found in
theorem serves_of_cut {m' : Bytes} (mid : List Region) {r : Region}
    (call : h.heapAlloc size true pages = some (some (b + d + headerSize), h.withMemory m'))
    (wf' : (h.withMemory m').WellFormed (front ++ (mid ++ back))) (same : endOf b mid = b + 12 + f)
    (block : (b + d, r) ∈ layout b mid) (used : r.used = true) (large : size ≤ r.size) :
    h.ServesAligned (front ++ ⟨f, false⟩ :: back) b f size pages := by
  have aligned := alignOffset_spec (b + headerSize)
  have header : headerSize = 12 := rfl
  rw [offset, show b + headerSize + d = b + d + headerSize by omega] at aligned
  refine ⟨_, _, _, call, aligned, by omega, by omega, rfl, rfl, wf', ⟨r, ?_, used, large⟩,
    fun c q member inUse => ⟨q, ?_, inUse, le_rfl, .inl rfl⟩⟩
  · rw [Nat.add_sub_cancel, withMemory_firstHeader, layout_append, place, layout_append]
    exact List.mem_append_right _ (List.mem_append_left _ block)
  · rw [layout_append, place, layout_cons] at member
    rw [withMemory_firstHeader, layout_append, place, layout_append, same]
    rcases List.mem_append.mp member with before | behind
    · exact List.mem_append_left _ before
    · rcases List.mem_cons.mp behind with here | behind
      · cases here
        cases inUse
      · exact List.mem_append_right _ (List.mem_append_right _ behind)

omit wf found in
theorem serves_of_merge {m' : Bytes} {fr : List Region} {g : Region} (split : front = fr ++ [g]) (mid : List Region)
    (call : h.heapAlloc size true pages = some (some (b + d + headerSize), h.withMemory m'))
    (wf' : (h.withMemory m').WellFormed (fr ++ ⟨g.size + d, g.used⟩ :: ⟨size, true⟩ :: (mid ++ back)))
    (same : endOf (b + d + 12 + size) mid = b + 12 + f) : h.ServesAligned (front ++ ⟨f, false⟩ :: back) b f size pages := by
  have aligned := alignOffset_spec (b + headerSize)
  have header : headerSize = 12 := rfl
  subst split
  rw [endOf_append, endOf_cons, endOf_nil] at place
  rw [offset, show b + headerSize + d = b + d + headerSize by omega] at aligned
  have next : endOf h.firstHeader fr + 12 + (g.size + d) = b + d := by omega
  have made : layout h.firstHeader (fr ++ ⟨g.size + d, g.used⟩ :: ⟨size, true⟩ :: (mid ++ back)) =
      layout h.firstHeader fr ++ (endOf h.firstHeader fr, ⟨g.size + d, g.used⟩) :: (b + d, ⟨size, true⟩) ::
        (layout (b + d + 12 + size) mid ++ layout (b + 12 + f) back) := by
    rw [layout_append, layout_cons, layout_cons, next, layout_append, same]
  refine ⟨_, _, _, call, aligned, by omega, by omega, rfl, rfl, wf', ⟨⟨size, true⟩, ?_, rfl, le_rfl⟩,
    fun c q member inUse => ?_⟩
  · rw [Nat.add_sub_cancel, withMemory_firstHeader, made]
    simp
  · rw [layout_append, layout_append, endOf_append, endOf_cons, endOf_nil, place, layout_cons, layout_cons, layout_nil] at member
    rw [withMemory_firstHeader, made]
    rcases List.mem_append.mp member with before | behind
    · rcases List.mem_append.mp before with before | here
      · exact ⟨q, List.mem_append_left _ before, inUse, le_rfl, .inl rfl⟩
      · cases List.mem_singleton.mp here
        refine ⟨⟨g.size + d, g.used⟩, List.mem_append_right _ List.mem_cons_self, inUse, Nat.le_add_right _ _, .inr ⟨place, ?_⟩⟩
        dsimp only
        omega
    · rcases List.mem_cons.mp behind with here | behind
      · cases here
        cases inUse
      · have later := List.mem_append_right (layout (b + d + 12 + size) mid) behind
        exact ⟨q, List.mem_append_right _ (List.mem_cons_of_mem _ (List.mem_cons_of_mem _ later)), inUse, le_rfl, .inl rfl⟩

theorem serves_at_start (aligned : d = 0) : h.ServesAligned (front ++ ⟨f, false⟩ :: back) b f size pages := by
  have bounds := wf.bounds
  have small := wf.small
  have header : headerSize = 12 := rfl
  rw [place] at bounds
  dsimp only at bounds
  subst aligned
  have returned {m : Bytes}
      (readied : ((h.splitRegion b size).bind fun h₁ => h₁.setMagic b heapUsedMagic) = some (h.withMemory m)) :
      h.heapAlloc size true pages = some (some (b + 0 + headerSize), h.withMemory m) := by
    rw [heapAlloc_readied wf place offset room found readied, Nat.add_zero, moveHeader_zero (by omega), Option.bind_some]
    dsimp only
    rw [u32_of_lt (by omega), Nat.add_zero]
  by_cases split : size + 16 ≤ f
  · obtain ⟨m, readied, wf'⟩ := readied_split wf place split
    refine serves_of_cut place offset room [⟨size, true⟩, ⟨f - size - 12, false⟩] (returned readied) wf' ?_
      List.mem_cons_self rfl le_rfl
    rw [endOf_cons, endOf_cons, endOf_nil]
    dsimp only
    omega
  · obtain ⟨m, readied, wf', -⟩ := readied_whole wf place room (by omega)
    exact serves_of_cut place offset room [⟨f, true⟩] (returned readied) wf' rfl List.mem_cons_self rfl (by dsimp only; omega)

omit found in
theorem exists_readied (behind : size + d + 16 ≤ f ∨ back = [] ∧ h.StaleHeader (b + d + headerSize + size)) :
    ∃ m v z, ((h.splitRegion b (size + d)).bind fun h₁ => h₁.setMagic b heapUsedMagic) = some (h.withMemory m) ∧
      Tiles m h.firstHeader 0 front ∧ m.word (b + 8) = lastOf h.firstHeader 0 front ∧
      Tiles m (b + d + 12 + size) v (z :: back) ∧ b + d + 12 + size + 12 + z.size = b + 12 + f := by
  have header : headerSize = 12 := rfl
  have next : b + 12 + (size + d) = b + d + 12 + size := by omega
  by_cases split : size + d + 16 ≤ f
  · obtain ⟨m, readied, wf'⟩ := readied_split wf place split
    obtain ⟨before, -, -, prev, after⟩ := tiles_append.mp wf'.tiles
    rw [withMemory_firstHeader, place] at prev after
    rw [next] at after
    refine ⟨m, b, ⟨f - (size + d) - 12, false⟩, readied, before, prev, after, ?_⟩
    dsimp only
    omega
  · obtain ⟨rfl, magic, ends⟩ := behind.resolve_left split
    obtain ⟨m, readied, wf', same⟩ := readied_whole wf place room (by omega)
    obtain ⟨before, -, -, prev, -⟩ := tiles_append.mp wf'.tiles
    rw [withMemory_firstHeader, place] at prev
    have last := wf.ends
    rw [endOf_append, place, endOf_cons, endOf_nil] at last
    dsimp only at last
    generalize here : b + d + headerSize + size = x at *
    have x_eq : b + d + 12 + size = x := by omega
    have old {c : Nat} (behind : b + 12 ≤ c) : m.word c = h.memory.word c := Bytes.word_congr fun i low _ => same i (by omega)
    have known : ∃ u, h.memory.word x = Region.magic ⟨h.memory.word (x + 4), u⟩ := by
      rcases magic with free | used
      · exact ⟨false, free⟩
      · exact ⟨true, used⟩
    obtain ⟨u, known⟩ := known
    refine ⟨m, m.word (x + 8), ⟨h.memory.word (x + 4), u⟩, readied, before, prev, ?_, ?_⟩
    · rw [x_eq, tiles_cons]
      exact ⟨(old (by omega)).trans known, old (by omega), rfl, tiles_nil⟩
    · rw [x_eq]
      dsimp only
      omega

theorem serves_wide (wide : 16 ≤ d) (behind : size + d + 16 ≤ f ∨ back = [] ∧ h.StaleHeader (b + d + headerSize + size)) :
    h.ServesAligned (front ++ ⟨f, false⟩ :: back) b f size pages := by
  have bounds := wf.bounds
  have small := wf.small
  have last := wf.ends
  have header : headerSize = 12 := rfl
  rw [place] at bounds
  rw [endOf_append, place, endOf_cons] at last
  dsimp only at bounds last
  obtain ⟨m, v, z, readied, before, prev, after, ends⟩ := exists_readied wf place offset room behind
  have whole : endOf (b + d + 12 + size) (z :: back) = h.end_ := by rw [endOf_cons, ends, last]
  refine serves_of_cut place offset room [⟨d - 12, false⟩, ⟨size, true⟩, z] (r := ⟨size, true⟩) ?_
    (gapped_wellFormed place before after whole small wf.mapped wide prev) ?_ ?_ rfl le_rfl
  · rw [heapAlloc_readied wf place offset room found readied,
      moveHeader_eq m wf.mapped bounds.1 (by omega) (by omega) small, if_pos wide, Option.bind_some]
    dsimp only
    rw [u32_of_lt (by omega)]
  · rw [endOf_cons, endOf_cons, endOf_cons, endOf_nil]
    dsimp only
    omega
  · have second : b + 12 + (d - 12) = b + d := by omega
    rw [layout_cons, layout_cons]
    dsimp only
    rw [second]
    simp

theorem serves_narrow {fr : List Region} {g : Region} (split : front = fr ++ [g]) (apart : 4 ≤ d) (narrow : d < 16)
    (reads : survivingPrev h.memory b d size = lastOf h.firstHeader 0 front)
    (behind : size + d + 16 ≤ f ∨ back = [] ∧ h.StaleHeader (b + d + headerSize + size)) :
    h.ServesAligned (front ++ ⟨f, false⟩ :: back) b f size pages := by
  have bounds := wf.bounds
  have small := wf.small
  have last := wf.ends
  have header : headerSize = 12 := rfl
  obtain ⟨-, -, -, link, -⟩ := tiles_append.mp wf.tiles
  rw [place] at bounds link
  rw [endOf_append, place, endOf_cons] at last
  dsimp only at bounds last
  obtain ⟨m, v, z, readied, before, prev, after, ends⟩ := exists_readied wf place offset room behind
  have whole : endOf (b + d + 12 + size) (z :: back) = h.end_ := by rw [endOf_cons, ends, last]
  have here : survivingPrev m b d size = endOf h.firstHeader fr := by
    rw [survivingPrev_congr (prev.trans link.symm), reads, split, lastOf_append]
    rfl
  have inFront : endOf h.firstHeader fr + 12 + g.size = b := by rw [← place, split, endOf_append]; rfl
  have low := le_endOf h.firstHeader fr
  refine serves_of_merge place offset room split [z] ?_
    (merged_wellFormed place before after whole small wf.mapped apart split) ?_
  · rw [heapAlloc_readied wf place offset room found readied,
      moveHeader_eq m wf.mapped bounds.1 (by omega) (by omega) small, if_neg (by omega), here, if_pos (by omega), Option.bind_some]
    dsimp only
    rw [u32_of_lt (by omega)]
  · rw [endOf_cons, endOf_nil, ends]

end

/-! ## What goes wrong -/

section
variable {l : List Region} {c : Nat} {q : Region} (tiles : Tiles m a v l) (member : (c, q) ∈ layout a l)
include tiles member

theorem header_of_mem : m.word c = q.magic ∧ m.word (c + 4) = q.size := by
  obtain ⟨front, back, rfl, rfl⟩ := exists_split_of_mem member
  obtain ⟨-, magic, size, -⟩ := tiles_append.mp tiles
  exact ⟨magic, size⟩

theorem next_of_mem : c + 12 + q.size = endOf a l ∨
    ∃ q₁, (c + 12 + q.size, q₁) ∈ layout a l ∧ m.word (c + 12 + q.size + 8) = c := by
  obtain ⟨front, back, rfl, rfl⟩ := exists_split_of_mem member
  obtain ⟨-, -, -, -, after⟩ := tiles_append.mp tiles
  cases back with
  | nil => exact .inl (by rw [endOf_append, endOf_cons, endOf_nil])
  | cons q₁ back =>
      refine .inr ⟨q₁, ?_, after.2.2.1⟩
      rw [layout_append, layout_cons, layout_cons]
      exact List.mem_append_right _ (List.mem_cons_of_mem _ List.mem_cons_self)

theorem prev_of_mem (behind : a < c) : ∃ q₁, (m.word (c + 8), q₁) ∈ layout a l ∧ m.word (c + 8) + 12 + q₁.size = c := by
  obtain ⟨front, back, rfl, rfl⟩ := exists_split_of_mem member
  rcases List.eq_nil_or_concat' front with rfl | ⟨fr, q₁, rfl⟩
  · exact absurd behind (Nat.lt_irrefl a)
  obtain ⟨-, -, -, prev, -⟩ := tiles_append.mp tiles
  rw [lastOf_append, lastOf_cons, lastOf_nil] at prev
  refine ⟨q₁, ?_, ?_⟩
  · rw [prev, layout_append, layout_append, layout_cons]
    exact List.mem_append_left _ (List.mem_append_right _ List.mem_cons_self)
  · rw [prev, endOf_append, endOf_cons, endOf_nil]

end

section
variable {front back l' : List Region} {f : Nat} {r : Region} (place : endOf h.firstHeader front = b) (positive : 0 < d)
  (wf' : (h.withMemory m').WellFormed l') (block : (b + d, r) ∈ layout h.firstHeader l')
  (kept : ∀ c q, (c, q) ∈ layout h.firstHeader (front ++ ⟨f, false⟩ :: back) → q.used = true →
    ∃ q', (c, q') ∈ layout h.firstHeader l' ∧ q.size ≤ q'.size)
include place positive wf' block kept

theorem named_of_kept {fr : List Region} {g : Region} (split : front = fr ++ [g]) (used : g.used = true) (few : d < 12) :
    m'.word (b + d + 8) = endOf h.firstHeader fr := by
  have low := le_endOf h.firstHeader fr
  have inFront : endOf h.firstHeader fr + 12 + g.size = b := by rw [← place, split, endOf_append]; rfl
  obtain ⟨q, named, adjacent⟩ := prev_of_mem wf'.tiles block (by rw [withMemory_firstHeader]; omega)
  rw [withMemory_memory] at named adjacent
  obtain ⟨g', same, larger⟩ := kept (endOf h.firstHeader fr) g (by rw [split]; simp) used
  rcases layout_apart named same with ⟨here, -⟩ | before | behind
  · exact here
  · omega
  · omega

theorem stale_of_kept (wf : h.WellFormed (front ++ ⟨f, false⟩ :: back)) (used : ∀ y ∈ back.head?, y.used = true)
    (room : size + d + 12 ≤ f) (few : f < size + d + 16) (large : r.size = size)
    (old : ∀ i, b + d + 12 + size ≤ i → i < b + d + 12 + size + 8 ∨ b + d + 12 + size + 12 ≤ i → m' i = h.memory i) :
    back = [] ∧ h.StaleHeader (b + d + headerSize + size) := by
  have header : headerSize = 12 := rfl
  have bounds := wf.bounds
  have ends := wf'.ends
  obtain ⟨-, -, -, -, after⟩ := tiles_append.mp wf.tiles
  rw [place] at bounds after
  rw [withMemory_firstHeader, withMemory_end] at ends
  dsimp only at bounds after
  generalize here : b + d + headerSize + size = x
  have x_eq : b + d + 12 + size = x := by omega
  rw [x_eq] at old
  -- the block does not reach the end of the heap
  obtain ⟨z, found⟩ : ∃ z, (x, z) ∈ layout h.firstHeader l' := by
    rcases next_of_mem wf'.tiles block with last | ⟨z, found, -⟩
    · rw [withMemory_firstHeader] at last
      omega
    · rw [large, x_eq] at found
      exact ⟨z, found⟩
  obtain ⟨magic, sizes⟩ := header_of_mem wf'.tiles found
  rw [withMemory_memory, Bytes.word_congr fun i low high => old i (by omega) (by omega)] at magic sizes
  have inside := (layout_bounds found).2
  rw [ends] at inside
  -- nor does the region behind it
  have last : back = [] ∧ x + 12 + z.size = h.end_ := by
    cases back with
    | nil =>
        have whole := wf.ends
        rw [endOf_append, place, endOf_cons, endOf_nil] at whole
        dsimp only at whole
        refine ⟨rfl, ?_⟩
        rcases next_of_mem wf'.tiles found with last | ⟨y, next, -⟩
        · rw [withMemory_firstHeader] at last
          omega
        · have := (layout_bounds next).2
          rw [withMemory_firstHeader] at this
          omega
    | cons y back =>
        exfalso
        have listed : (b + 12 + f, y) ∈ layout h.firstHeader (front ++ ⟨f, false⟩ :: y :: back) := by
          rw [layout_append, place]
          simp
        obtain ⟨y', same, -⟩ := kept _ y listed (used y rfl)
        have link := after.2.2.1
        have yInside := (layout_bounds same).2
        rcases next_of_mem wf'.tiles found with last | ⟨z', next, linked⟩
        · rw [withMemory_firstHeader] at last
          rcases layout_apart found same with ⟨at_, -⟩ | before | behind <;> omega
        · rw [withMemory_firstHeader] at next
          rw [withMemory_memory] at linked
          have before : x + 12 + z.size ≤ b + 12 + f := by
            rcases layout_apart found same with ⟨at_, -⟩ | before | behind <;> omega
          have at_ : x + 12 + z.size = b + 12 + f := by
            rcases layout_apart next same with ⟨at_, -⟩ | earlier | behind <;> omega
          rw [at_, Bytes.word_congr fun i low high => old i (by omega) (by omega), link] at linked
          omega
  refine ⟨last.1, ?_, by omega⟩
  cases used : z.used with
  | false => exact .inl (magic.trans (Region.magic_eq_free.mpr used))
  | true => exact .inr (magic.trans (Region.magic_eq_used.mpr used))

end

section
variable {front back : List Region} {f : Nat} {final : Option Nat} (wf : h.WellFormed (front ++ ⟨f, false⟩ :: back))
  (place : endOf h.firstHeader front = b) (offset : alignOffset (b + headerSize) = d) (room : size + d + 12 ≤ f)
include wf place room

theorem exists_marked : ∃ m, ((h.splitRegion b (size + d)).bind fun h₁ => h₁.setMagic b heapUsedMagic) = some (h.withMemory m) ∧
    m.word (b + 8) = h.memory.word (b + 8) ∧ (f < size + d + 16 → ∀ i, i < b ∨ b + 12 ≤ i → m i = h.memory i) := by
  obtain ⟨-, -, -, link, -⟩ := tiles_append.mp wf.tiles
  rw [place] at link
  by_cases split : size + d + 16 ≤ f
  · obtain ⟨m, readied, wf'⟩ := readied_split wf place split
    obtain ⟨-, -, -, prev, -⟩ := tiles_append.mp wf'.tiles
    rw [withMemory_firstHeader, place] at prev
    exact ⟨m, readied, prev.trans link.symm, fun few => by omega⟩
  · obtain ⟨m, readied, wf', same⟩ := readied_whole wf place room (by omega)
    obtain ⟨-, -, -, prev, -⟩ := tiles_append.mp wf'.tiles
    rw [withMemory_firstHeader, place] at prev
    exact ⟨m, readied, prev.trans link.symm, fun _ => same⟩

include offset

theorem exists_moved {m : Bytes} {v : Nat}
    (found : h.findLoop (u32 (size + headerSize)) true (2 ^ 32) h.firstHeader none = some (b, final)) (positive : 0 < d)
    (readied : ((h.splitRegion b (size + d)).bind fun h₁ => h₁.setMagic b heapUsedMagic) = some (h.withMemory m))
    (call : h.heapAlloc size true pages = some (some v, h')) : v = b + d + 12 ∧ ∃ m', h' = h.withMemory m' ∧
      (16 ≤ d ∧ m' = gapped m b d size ∨ d < 16 ∧ m' = merged m b d size (survivingPrev m b d size)) := by
  have bounds := wf.bounds
  have small := wf.small
  rw [place] at bounds
  dsimp only at bounds
  have addr : u32 (b + d + headerSize) = b + d + 12 := u32_of_lt (by rw [headerSize]; omega)
  rw [heapAlloc_readied wf place offset room found readied, moveHeader_eq m wf.mapped bounds.1 positive (by omega) small] at call
  split_ifs at call with wide inside
  · rw [Option.bind_some] at call
    dsimp only at call
    rw [addr] at call
    cases call
    exact ⟨rfl, _, rfl, .inl ⟨wide, rfl⟩⟩
  · rw [Option.bind_some] at call
    dsimp only at call
    rw [addr] at call
    cases call
    exact ⟨rfl, _, rfl, .inr ⟨by omega, rfl⟩⟩
  · cases call

end

theorem four_le_of_magic {p : Nat} (positive : 0 < d) (before : p + 12 ≤ b)
    (magic : (merged m b d size p).word (b + d) = heapUsedMagic) : 4 ≤ d := by
  by_contra few
  have byte := byte_of_word (merged m b d size p) (show b + d ≤ b + 3 by omega) (by omega)
  rw [magic, merged, Bytes.setWord_of_outside (by omega), Bytes.setWord_of_outside (by omega), carved,
    Bytes.setWord_of_outside (by omega), Bytes.setWord, if_pos (by omega), Nat.add_sub_cancel_left,
    show b + 3 - (b + d) = 3 - d by omega] at byte
  have three : d = 1 ∨ d = 2 ∨ d = 3 := by omega
  rcases three with rfl | rfl | rfl <;> exact absurd byte (by decide)

section
variable {front back : List Region} {f : Nat} {final : Option Nat} (wf : h.WellFormed (front ++ ⟨f, false⟩ :: back))
  (apart : NoAdjacentFree (front ++ ⟨f, false⟩ :: back)) (place : endOf h.firstHeader front = b)
  (offset : alignOffset (b + headerSize) = d) (room : size + d + 12 ≤ f) (asked : size < 2 ^ 32)
  (found : h.findLoop (u32 (size + headerSize)) true (2 ^ 32) h.firstHeader none = some (b, final))
include wf apart place offset room asked found

theorem placeable_of_serves (positive : 0 < d) (notFirst : d < 16 → front ≠ [])
    (serves : h.ServesAligned (front ++ ⟨f, false⟩ :: back) b f size pages) :
    4 ≤ d ∧ (d < 16 → survivingPrev h.memory b d size = lastOf h.firstHeader 0 front) ∧
      (size + d + 16 ≤ f ∨ back = [] ∧ h.StaleHeader (b + d + headerSize + size)) := by
  obtain ⟨v, h', l', call, -, -, -, -, -, wf', ⟨r, block, used, large⟩, kept⟩ := serves
  obtain ⟨m, readied, sameLink, unsplit⟩ := exists_marked wf place room
  obtain ⟨rfl, m', rfl, made⟩ := exists_moved wf place offset room found positive readied call
  obtain ⟨-, after, inFront, behind⟩ := noAdjacentFree_append_cons.mp apart
  obtain ⟨-, -, -, link, -⟩ := tiles_append.mp wf.tiles
  rw [headerSize, Nat.add_sub_cancel, withMemory_firstHeader] at block
  rw [place] at link
  have larger : ∀ c q, (c, q) ∈ layout h.firstHeader (front ++ ⟨f, false⟩ :: back) → q.used = true →
      ∃ q', (c, q') ∈ layout h.firstHeader l' ∧ q.size ≤ q'.size := by
    intro c q member inUse
    obtain ⟨q', same, -, le, -⟩ := kept c q member inUse
    exact ⟨q', same, le⟩
  obtain ⟨magic, sizes⟩ := header_of_mem wf'.tiles block
  rw [withMemory_memory] at magic sizes
  rw [Region.magic_eq_used.mpr used] at magic
  -- a narrow gap goes to the region in front, which ends at `b`
  have owner (narrow : d < 16) :
      survivingPrev m b d size = lastOf h.firstHeader 0 front ∧ survivingPrev m b d size + 12 ≤ b := by
    obtain ⟨fr, g, split⟩ := (List.eq_nil_or_concat' front).resolve_left (notFirst narrow)
    have ends : endOf h.firstHeader fr + 12 + g.size = b := by rw [← place, split, endOf_append]; rfl
    have last : lastOf h.firstHeader 0 front = endOf h.firstHeader fr := by rw [split, lastOf_append]; rfl
    have same : survivingPrev m b d size = lastOf h.firstHeader 0 front := by
      by_cases few : d < 12
      · have gUsed : g.used = true := (inFront g (by rw [split]; simp)).resolve_right Bool.false_ne_true
        obtain rfl := (made.resolve_left (by omega)).2
        have named := named_of_kept place positive wf' block larger split gUsed few
        rw [merged, Bytes.word_setWord survivingPrev_lt] at named
        exact named.trans last.symm
      · rw [survivingPrev_of_wide (by omega), sameLink, link]
    exact ⟨same, by omega⟩
  have four : 4 ≤ d := by
    rcases made with ⟨wide, -⟩ | ⟨narrow, rfl⟩
    · omega
    · exact four_le_of_magic positive (owner narrow).2 magic
  refine ⟨four, fun narrow => (survivingPrev_congr sameLink.symm).trans (owner narrow).1, ?_⟩
  by_cases split : size + d + 16 ≤ f
  · exact .inl split
  refine .inr (stale_of_kept place positive wf' block larger wf
    (fun y first => (behind y first).resolve_left Bool.false_ne_true) room (by omega) ?_ fun i behind outside => ?_)
  · rw [← sizes]
    rcases made with ⟨wide, rfl⟩ | ⟨narrow, rfl⟩
    · rw [gapped, Bytes.word_setWord_of_outside (by omega), Bytes.word_setWord_of_outside (by omega), carved_size asked]
    · have := (owner narrow).2
      rw [merged, Bytes.word_setWord_of_outside (by omega), Bytes.word_setWord_of_outside (by omega), carved_size asked]
  · rw [← unsplit (by omega) i (by omega)]
    rcases made with ⟨wide, rfl⟩ | ⟨narrow, rfl⟩
    · rw [gapped, Bytes.setWord_of_outside (by omega), Bytes.setWord_of_outside (by omega), carved_of_behind (by omega),
        Bytes.setWord_of_outside (by omega)]
    · have := (owner narrow).2
      rw [merged, Bytes.setWord_of_outside (by omega), Bytes.setWord_of_outside (by omega), carved_of_behind (by omega),
        Bytes.setWord_of_outside (by omega)]

end

/-! ## The page boundary -/

theorem WellFormed.found_free {l : List Region} {n : Nat} {align : Bool} {final : Option Nat} (wf : h.WellFormed l)
    (asked : n < 2 ^ 32) (found : h.findLoop n align (2 ^ 32) h.firstHeader none = some (b, final)) (inside : b < h.end_) :
    ∃ front f back, l = front ++ ⟨f, false⟩ :: back ∧ endOf h.firstHeader front = b ∧
      ¬ Skipped align b (lastOf h.firstHeader 0 front) ∧ u32 (n + padding align (b + headerSize)) ≤ f := by
  by_cases stops : h.StopsIn l n align
  · obtain ⟨front, r, back, rfl, here, passed⟩ := stops.first
    obtain ⟨_, first⟩ := wf.findLoop_stops asked passed here
    obtain ⟨place, -⟩ := Prod.mk.inj (Option.some.inj (first.symm.trans found))
    obtain ⟨f, used⟩ := r
    obtain ⟨rfl, notSkipped, fits⟩ := here
    rw [place] at notSkipped fits
    exact ⟨front, f, back, rfl, place, notSkipped, fits⟩
  · exfalso
    by_cases nonempty : l = []
    · subst nonempty
      have first : h.firstHeader = h.end_ := wf.ends
      have fuel : 2 ^ 32 = 2 ^ 32 - 1 + 1 := by decide
      rw [fuel, Heap.findLoop, if_neg (by omega)] at found
      obtain ⟨rfl, -⟩ := Prod.mk.inj (Option.some.inj found)
      omega
    · rw [wf.findLoop_end nonempty asked stops] at found
      obtain ⟨rfl, -⟩ := Prod.mk.inj (Option.some.inj found)
      omega

/-- The block is at the next page boundary and the heap stays well formed exactly when nothing wraps, the new header
leaves the old `prev` field readable and what is left of the region is another region. -/
theorem heapAlloc_aligned_iff {l : List Region} {final : Option Nat} (pages : Pages) (wf : h.WellFormed l)
    (apart : NoAdjacentFree l) (asked : size < 2 ^ 32)
    (found : h.findLoop (u32 (size + headerSize)) true (2 ^ 32) h.firstHeader none = some (b, final)) (inside : b < h.end_) :
    ∃ front f back, l = front ++ ⟨f, false⟩ :: back ∧ endOf h.firstHeader front = b ∧
      (h.ServesAligned l b f size pages ↔ h.Placeable front back f size) := by
  have short : u32 (size + headerSize) < 2 ^ 32 := Nat.mod_lt _ (by decide)
  obtain ⟨front, f, back, rfl, place, notSkipped, fits⟩ := wf.found_free short found inside
  refine ⟨front, f, back, rfl, place, ?_⟩
  have bounds := wf.bounds
  have small := wf.small
  have page := alignOffset_lt (b + headerSize)
  have header : headerSize = 12 := rfl
  have region : minRegionSize = 4 := rfl
  rw [place] at bounds
  dsimp only at bounds
  simp only [Placeable, place]
  rw [Skipped, padding, if_pos rfl] at notSkipped
  rw [padding, if_pos rfl] at fits
  generalize offset : alignOffset (b + headerSize) = d at *
  by_cases whole : size + 12 + d < 2 ^ 32
  · have room : size + d + 12 ≤ f := by
      have inner : u32 (size + headerSize) = size + headerSize := u32_of_lt (by omega)
      rw [inner, u32_of_lt (by omega)] at fits
      omega
    by_cases zero : d = 0
    · exact iff_of_true (serves_at_start wf place offset room found zero) ⟨whole, .inl zero⟩
    have notFirst (narrow : d < 16) : front ≠ [] := by
      rintro rfl
      exact notSkipped ⟨by omega, by omega, rfl⟩
    constructor
    · intro serves
      exact ⟨whole, .inr (placeable_of_serves wf apart place offset room asked found (by omega) notFirst serves)⟩
    · rintro ⟨-, rfl | ⟨four, reads, behind⟩⟩
      · exact absurd rfl zero
      · by_cases wide : 16 ≤ d
        · exact serves_wide wf place offset room found wide behind
        · obtain ⟨fr, g, split⟩ := (List.eq_nil_or_concat' front).resolve_left (notFirst (by omega))
          exact serves_narrow wf place offset room found split four (by omega) (reads (by omega)) behind
  · refine iff_of_false (fun serves => ?_) fun placeable => whole placeable.1
    obtain ⟨v, h', l', -, aligned, low, high, -⟩ := serves
    have := alignOffset_least aligned low
    omega

section TwoPages

-- the heap at 8192, with one free region
def twoPages : Heap := ⟨8192, 16384, 73728, 4096, (Bytes.setWord (fun _ => 0) 8206 heapFreeMagic).setWord 8210 8166,
  fun _ => false⟩

theorem twoPages_wellFormed : twoPages.WellFormed [⟨8166, false⟩] := by
  refine ⟨⟨?_, ?_, ?_, trivial⟩, rfl, by decide, fun _ _ _ => rfl⟩ <;> decide

theorem twoPages_found (large : size ≤ 4084) :
    ∃ final, twoPages.findLoop (u32 (size + headerSize)) true (2 ^ 32) twoPages.firstHeader none = some (8206, final) := by
  have asked : u32 (size + headerSize) = size + 12 := u32_of_lt (by rw [headerSize]; omega)
  have gap : padding true (8206 + headerSize) = 4070 := by decide
  have stops : Stops (size + 12) true 8206 0 ⟨8166, false⟩ := by
    refine ⟨rfl, fun skipped => absurd skipped.2.1 (by rw [gap]; decide), ?_⟩
    rw [gap, u32_of_lt (by omega)]
    dsimp only
    omega
  have wf : twoPages.WellFormed ([] ++ ⟨8166, false⟩ :: []) := twoPages_wellFormed
  rw [asked]
  exact wf.findLoop_stops (by omega) (fun p r q split => by simp at split) stops

theorem heapAlloc_aligned_iff_two_pages : twoPages.ServesAligned [⟨8166, false⟩] 8206 8166 4000 none := by
  obtain ⟨final, found⟩ := twoPages_found (show 4000 ≤ 4084 by decide)
  obtain ⟨front, f, back, split, place, served⟩ :=
    heapAlloc_aligned_iff none twoPages_wellFormed (List.isChain_singleton _) (by decide) found (by decide)
  obtain ⟨rfl, same, rfl⟩ := (List.append_eq_singleton_iff.mp split.symm).resolve_right (by simp) |>.imp_right List.cons.inj
  cases same
  exact served.mpr ⟨by decide, .inr ⟨by decide, fun narrow => absurd narrow (by decide), .inl (by decide)⟩⟩

/-- Twelve bytes are left behind the block, and are no header. -/
theorem surplus_is_no_region :
    ¬ ∀ (h : Heap) (l : List Region) (b f size : Nat) (pages : Pages) (final : Option Nat), h.WellFormed l → NoAdjacentFree l →
        size < 2 ^ 32 → h.findLoop (u32 (size + headerSize)) true (2 ^ 32) h.firstHeader none = some (b, final) → b < h.end_ →
          (b, ⟨f, false⟩) ∈ layout h.firstHeader l → h.ServesAligned l b f size pages := by
  intro always
  obtain ⟨final, found⟩ := twoPages_found (le_refl 4084)
  have serves := always twoPages [⟨8166, false⟩] 8206 8166 4084 none final twoPages_wellFormed (List.isChain_singleton _)
    (by decide) found (by decide) List.mem_cons_self
  have wf : twoPages.WellFormed ([] ++ ⟨8166, false⟩ :: []) := twoPages_wellFormed
  have place : endOf twoPages.firstHeader [] = 8206 := rfl
  obtain ⟨-, -, split | ⟨-, magic, -⟩⟩ := placeable_of_serves wf (List.isChain_singleton _) place (d := 4070) (by decide)
    (by decide) (by decide) found (by decide) (fun narrow => absurd narrow (by decide)) serves
  · exact absurd split (by decide)
  · have zero : twoPages.memory.word (8206 + 4070 + headerSize + 4084) = 0 := by decide
    rw [zero] at magic
    exact absurd magic (by decide)

end TwoPages

end Heap
end Kerosene.Mem
