import Kerosene.Mem.HeapRegions

/-!
# Freeing a block

The block joins the free regions beside it. Where it then reaches the end of the heap, `heap_free` may
take pages from there.
-/

namespace Kerosene.Mem
open Lib

variable {m m' m'' : Bytes} {a b c n x : Nat} {l l' front back : List Region} {p q r : Region}

/-- Only header bytes differ. -/
def Keeps (m m' : Bytes) (headers : List Nat) : Prop := ∀ i, (∀ b ∈ headers, i < b ∨ b + 12 ≤ i) → m' i = m i

def headers (a : Nat) (l : List Region) : List Nat := (layout a l).map Prod.fst

theorem Keeps.trans {hs : List Nat} (first : Keeps m m' hs) (second : Keeps m' m'' hs) : Keeps m m'' hs :=
  fun i outside => (second i outside).trans (first i outside)

theorem Keeps.mono {hs hs' : List Nat} (keeps : Keeps m m' hs) (subset : hs ⊆ hs') : Keeps m m' hs' :=
  fun i outside => keeps i fun b member => outside b (subset member)

/-! ## The freed block and its neighbours -/

/-- A free region of `size` bytes, and the regions before and behind it. -/
structure Hole where
  front : List Region
  size : Nat
  back : List Region

namespace Hole
variable {g : Hole}

def regions (g : Hole) : List Region := g.front ++ ⟨g.size, false⟩ :: g.back

def joinNext : Hole → Hole
  | ⟨front, size, ⟨s, false⟩ :: back⟩ => ⟨front, size + 12 + s, back⟩
  | g => g

def joinPrev (g : Hole) : Hole :=
  match g.front.getLast? with
  | some ⟨s, false⟩ => ⟨g.front.dropLast, s + 12 + g.size, g.back⟩
  | _ => g

/-- The same regions in use, and no new headers. -/
structure Coarser (a : Nat) (l l' : List Region) : Prop where
  used : ∀ c q, q.used = true → ((c, q) ∈ layout a l' ↔ (c, q) ∈ layout a l)
  headers : headers a l' ⊆ headers a l

theorem Coarser.refl (a : Nat) (l : List Region) : Coarser a l l := ⟨fun _ _ _ => Iff.rfl, fun _ => id⟩

theorem coarser_join (s t : Nat) :
    Coarser a (front ++ ⟨s, false⟩ :: ⟨t, false⟩ :: back) (front ++ ⟨s + 12 + t, false⟩ :: back) := by
  have next : endOf a front + 12 + (s + 12 + t) = endOf a front + 12 + s + 12 + t := by omega
  refine ⟨fun c q used => ?_, fun b member => ?_⟩
  · have notFree : ∀ n, q ≠ ⟨n, false⟩ := by
      rintro n rfl
      cases used
    simp only [layout_append, layout_cons, next, List.mem_append, List.mem_cons, Prod.mk.injEq, notFree, and_false, false_or]
  · simp only [headers, layout_append, layout_cons, next, List.map_append, List.map_cons, List.mem_append, List.mem_cons]
      at member ⊢
    tauto

theorem joinNext_front (g : Hole) : g.joinNext.front = g.front := by
  obtain ⟨front, size, back⟩ := g
  match back with
  | [] => rfl
  | ⟨s, true⟩ :: back => rfl
  | ⟨s, false⟩ :: back => rfl

theorem coarser_joinNext (g : Hole) : Coarser a g.regions g.joinNext.regions := by
  obtain ⟨front, size, back⟩ := g
  match back with
  | [] => exact .refl ..
  | ⟨s, true⟩ :: back => exact .refl ..
  | ⟨s, false⟩ :: back => exact coarser_join size s

theorem joinPrev_of_free {s : Nat} (last : g.front = front ++ [⟨s, false⟩]) : g.joinPrev = ⟨front, s + 12 + g.size, g.back⟩ := by
  simp [joinPrev, last]

theorem joinPrev_of_used {s : Nat} (last : g.front = front ++ [⟨s, true⟩]) : g.joinPrev = g := by
  simp [joinPrev, last]

theorem joinPrev_of_nil (none : g.front = []) : g.joinPrev = g := by
  simp [joinPrev, none]

theorem coarser_joinPrev (g : Hole) : Coarser a g.regions g.joinPrev.regions := by
  rcases List.eq_nil_or_concat g.front with none | ⟨front, ⟨s, used⟩, last⟩
  · rw [joinPrev_of_nil none]
    exact .refl ..
  rw [List.concat_eq_append] at last
  cases used with
  | true =>
      rw [joinPrev_of_used last]
      exact .refl ..
  | false =>
      rw [joinPrev_of_free last, regions, last, List.append_assoc]
      exact coarser_join s g.size

theorem Coarser.trans {l'' : List Region} (first : Coarser a l l') (second : Coarser a l' l'') : Coarser a l l'' :=
  ⟨fun c q used => (second.used c q used).trans (first.used c q used), fun _ member => first.headers (second.headers member)⟩

/-- The hole together with the free regions beside it. -/
def joined (g : Hole) : Hole := g.joinNext.joinPrev

theorem coarser_joined (g : Hole) : Coarser a g.regions g.joined.regions := (coarser_joinNext g).trans (coarser_joinPrev _)

end Hole

namespace Heap
variable {h : Heap} {g : Hole}

theorem WellFormed.setSize_linkNext (wf : h.WellFormed (front ++ p :: q :: back)) :
    ∃ m, ((h.setSize (endOf h.firstHeader front) (p.size + 12 + q.size)).bind fun h₁ =>
        h₁.linkNext (endOf h.firstHeader front)) = some (h.withMemory m) ∧
      (h.withMemory m).WellFormed (front ++ ⟨p.size + 12 + q.size, p.used⟩ :: back) ∧
      Keeps h.memory m (headers h.firstHeader (front ++ p :: q :: back)) := by
  obtain ⟨low, high⟩ := wf.bounds
  obtain ⟨before, magic, size, prev, -, -, -, after⟩ := tiles_append.mp wf.tiles
  have ends := wf.ends
  have small := wf.small
  have inside := le_endOf (endOf h.firstHeader front + 12 + p.size + 12 + q.size) back
  simp only [endOf_append, endOf_cons] at ends
  generalize place : endOf h.firstHeader front = b at *
  have next : b + 12 + (p.size + 12 + q.size) = b + 12 + p.size + 12 + q.size := by omega
  have sized := store_eq (h := h) (a := b + 4) (v := p.size + 12 + q.size) wf.mapped (by omega) (by omega)
  generalize changed : h.memory.setWord (b + 4) (p.size + 12 + q.size) = m₁ at sized
  have kept : ∀ i, i < b + 4 ∨ b + 8 ≤ i → m₁ i = h.memory i := fun i outside => by
    rw [← changed, Bytes.setWord_of_outside (by omega)]
  have header : Tiles m₁ b (lastOf h.firstHeader 0 front) [⟨p.size + 12 + q.size, p.used⟩] := by
    refine ⟨?_, by rw [← changed, Bytes.word_setWord (by omega)], ?_, trivial⟩
    · rw [Bytes.word_congr fun i _ upper => kept i (by omega), magic]
      rfl
    · rw [Bytes.word_congr fun i _ upper => kept i (by omega), prev]
  have headerAt : (h.withMemory m₁).HeaderAt b ⟨p.size + 12 + q.size, p.used⟩ (lastOf h.firstHeader 0 front) := by
    refine headerAt_of_tiles wf.mapped.withMemory low header ?_ small
    simp only [endOf_cons, endOf_nil, next, withMemory_end]
    omega
  obtain ⟨m, linked, rest, kept'⟩ := linkNext_spec (h := h.withMemory m₁) wf.mapped.withMemory low headerAt small
    (by rw [next]; exact after.congr fun i above _ => kept i (by omega)) (by rw [next, withMemory_end, ends])
  rw [next] at rest kept'
  have below : ∀ i, i < b + 12 → m i = m₁ i := fun i lt => by rw [kept' i (.inl (by omega)), withMemory_memory]
  refine ⟨m, ?_, ⟨?_, ?_, small, wf.mapped.withMemory⟩, fun i outside => ?_⟩
  · rw [setSize, sized, Option.bind_some, linked, withMemory_withMemory]
  · rw [withMemory_memory, withMemory_firstHeader]
    refine tiles_append.mpr ⟨before.congr fun i _ lt => by rw [below i (by omega), kept i (by omega)], ?_⟩
    rw [place]
    obtain ⟨magic₁, size₁, prev₁, -⟩ := header
    refine ⟨?_, ?_, ?_, by rwa [next]⟩
    · rw [Bytes.word_congr fun i _ lt => below i (by omega), magic₁]
    · rw [Bytes.word_congr fun i _ lt => below i (by omega), size₁]
    · rw [Bytes.word_congr fun i _ lt => below i (by omega), prev₁]
  · simp only [withMemory_firstHeader, withMemory_end, endOf_append, endOf_cons, place, next, ends]
  · simp only [headers, layout_append, layout_cons, place, List.map_append, List.map_cons, List.mem_append, List.mem_cons]
      at outside
    have here := outside b (by simp)
    rw [kept' i (.inr fun r member => outside r.1 (by simp [List.mem_map_of_mem member])), withMemory_memory,
      kept i (by omega)]

theorem WellFormed.headerAt_next (wf : h.WellFormed (front ++ p :: q :: back)) :
    h.HeaderAt (endOf h.firstHeader front + 12 + p.size) q (endOf h.firstHeader front) ∧
      endOf h.firstHeader front + 12 + p.size + 12 + q.size ≤ h.end_ := by
  have same : front ++ p :: q :: back = (front ++ [p]) ++ q :: back := by simp
  rw [same] at wf
  have header := wf.headerAt
  have bounds := wf.bounds
  simp only [endOf_append, endOf_cons, endOf_nil, lastOf_append, lastOf_cons, lastOf_nil] at header bounds
  exact ⟨header, bounds.2⟩

theorem WellFormed.mergeNext (wf : h.WellFormed g.regions) :
    ∃ m, h.mergeNext (endOf h.firstHeader g.front) = some (h.withMemory m) ∧ (h.withMemory m).WellFormed g.joinNext.regions ∧
      Keeps h.memory m (headers h.firstHeader g.regions) := by
  obtain ⟨front, size, back⟩ := g
  dsimp only [Hole.regions] at wf ⊢
  have header := wf.headerAt
  have small := wf.small
  rw [Heap.mergeNext, header.next, Option.bind_eq_bind, Option.bind_some]
  match back with
  | [] =>
      have ends := wf.ends
      simp only [endOf_append, endOf_cons, endOf_nil] at ends
      rw [if_neg (by dsimp only; omega)]
      exact ⟨h.memory, rfl, wf, fun _ _ => rfl⟩
  | ⟨s, used⟩ :: back =>
      obtain ⟨next, bound⟩ := wf.headerAt_next
      dsimp only at next bound ⊢
      rw [if_pos (by omega), next.magic, Option.bind_some]
      cases used with
      | true =>
          rw [if_neg (by simp [Region.magic, heapUsedMagic, heapFreeMagic])]
          exact ⟨h.memory, rfl, wf, fun _ _ => rfl⟩
      | false =>
          obtain ⟨m, done, joined, keeps⟩ := wf.setSize_linkNext
          refine ⟨m, ?_, joined, keeps⟩
          have sum : u32 (size + s + headerSize) = size + 12 + s := by
            rw [headerSize, u32_of_lt (by omega)]
            omega
          simp only [Region.magic_free, if_true, header.size, next.size, Option.bind_eq_bind, Option.bind_some, sum]
          exact done

theorem WellFormed.mergePrev (wf : h.WellFormed g.regions) :
    ∃ m, h.mergePrev (lastOf h.firstHeader 0 g.front) (endOf h.firstHeader g.front) =
        some (endOf h.firstHeader g.joinPrev.front, h.withMemory m) ∧ (h.withMemory m).WellFormed g.joinPrev.regions ∧
      Keeps h.memory m (headers h.firstHeader g.regions) := by
  have header := wf.headerAt
  have small := wf.small
  have bounds := wf.bounds
  rw [Heap.mergePrev]
  rcases List.eq_nil_or_concat g.front with none | ⟨front, ⟨s, used⟩, last⟩
  · rw [Hole.joinPrev_of_nil none, none]
    exact ⟨h.memory, rfl, wf, fun _ _ => rfl⟩
  rw [List.concat_eq_append] at last
  rw [Hole.regions, last, List.append_assoc, List.singleton_append] at wf
  have prev := wf.headerAt
  have first : h.firstHeader ≠ 0 := by rw [firstHeader, heapSize]; omega
  have low := wf.bounds.1
  rw [last] at header bounds ⊢
  simp only [endOf_append, lastOf_append, endOf_cons, endOf_nil, lastOf_cons, lastOf_nil] at header bounds ⊢
  rw [if_pos (by omega), prev.magic, Option.bind_eq_bind, Option.bind_some]
  cases used with
  | true =>
      have magic : Region.magic ⟨s, true⟩ ≠ heapFreeMagic := fun same => by cases Region.magic_eq_free.mp same
      rw [Hole.joinPrev_of_used last, if_neg magic, last, endOf_append]
      refine ⟨h.memory, rfl, ?_, fun _ _ => rfl⟩
      rwa [Hole.regions, last, List.append_assoc, List.singleton_append]
  | false =>
      obtain ⟨m, done, joined, keeps⟩ := wf.setSize_linkNext
      have sum : u32 (s + g.size + headerSize) = s + 12 + g.size := by
        rw [headerSize, u32_of_lt (by omega)]
        omega
      rw [Hole.joinPrev_of_free last]
      refine ⟨m, ?_, joined, by rwa [Hole.regions, last, List.append_assoc, List.singleton_append]⟩
      simp only [Region.magic_free, if_true, prev.size, header.size, Option.bind_eq_bind, Option.bind_some, sum]
      rw [Option.bind_eq_some_iff] at done
      obtain ⟨h₁, sized, linked⟩ := done
      rw [sized, Option.bind_some, linked]
      rfl

-- all of `heap_free` before the heap may shrink
theorem WellFormed.heapFree (wf : h.WellFormed (front ++ ⟨x, true⟩ :: back)) :
    ∃ m, h.heapFree (endOf h.firstHeader front + headerSize) =
        (h.withMemory m).shrink (endOf h.firstHeader (Hole.mk front x back).joined.front) ∧
      (h.withMemory m).WellFormed (Hole.mk front x back).joined.regions ∧
      Keeps h.memory m (headers h.firstHeader (front ++ ⟨x, true⟩ :: back)) := by
  have header := wf.headerAt
  have bounds := wf.bounds
  have small := wf.small
  have addr : u32Sub (endOf h.firstHeader front + headerSize) headerSize = endOf h.firstHeader front := by
    rw [u32Sub_of_le (by rw [headerSize]; omega) (Nat.le_add_left _ _), Nat.add_sub_cancel]
  obtain ⟨m₁, marked, wf₁, kept₁⟩ := wf.setMagic (u := false)
  obtain ⟨m₂, next, wf₂, kept₂⟩ := WellFormed.mergeNext (g := ⟨front, x, back⟩) wf₁
  have sameFront : (Hole.mk front x back).joinNext.front = front := Hole.joinNext_front _
  obtain ⟨m₃, prev, wf₃, kept₃⟩ := wf₂.mergePrev
  simp only [withMemory_firstHeader, withMemory_memory, withMemory_withMemory, sameFront] at next prev kept₂ kept₃
  have sameHeaders : headers h.firstHeader (Hole.mk front x back).regions = headers h.firstHeader (front ++ ⟨x, true⟩ :: back) := by
    simp [headers, Hole.regions]
  refine ⟨m₃, ?_, wf₃, ?_⟩
  · have freed : h.setMagic (endOf h.firstHeader front) heapFreeMagic = some (h.withMemory m₁) := marked
    simp only [Heap.heapFree, addr, header.magic, header.prev, Region.magic, if_true, ne_eq, not_true, if_false, freed, next, prev,
      Option.bind_eq_bind, Option.bind_some]
    rfl
  · refine Keeps.trans (fun i outside => ?_) (Keeps.trans (by rwa [← sameHeaders]) (kept₃.mono ?_))
    · exact kept₁ i (outside _ (by simp [headers]))
    · rw [← sameHeaders]
      exact (Hole.coarser_joinNext _).headers

/-! ## Taking pages from the end -/

/-- The pages that `heap_free` takes, when the region at the end is free and has `r` bytes. -/
def contractBy (h : Heap) (r : Nat) : Nat :=
  let idealSize := u32 (u32Sub h.end_ h.heap * 2) / 5 / pageSize
  if idealSize > 0 ∧ u32Sub r (u32 (idealSize * pageSize)) ≥ minRegionSize then h.contractCount idealSize else 0

def withEnd (h : Heap) (e : Nat) : Heap := { h with end_ := e }

theorem contractBy_le {r : Nat} (order : h.heap ≤ h.end_) (small : h.end_ < 2 ^ 32) (minimal : h.minSize ≤ h.end_ - h.heap) :
    h.contractBy r * pageSize + h.minSize ≤ h.end_ - h.heap := by
  have total : u32Sub h.end_ h.heap = h.end_ - h.heap := u32Sub_of_le small order
  rw [contractBy, total]
  generalize ideal : u32 ((h.end_ - h.heap) * 2) / 5 / pageSize = n
  have bound : n * pageSize ≤ h.end_ - h.heap := by
    rw [← ideal]
    have := Nat.div_mul_le_self (u32 ((h.end_ - h.heap) * 2) / 5) pageSize
    have : u32 ((h.end_ - h.heap) * 2) ≤ (h.end_ - h.heap) * 2 := Nat.mod_le _ _
    omega
  split_ifs
  · have bytes : u32 (n * pageSize) = n * pageSize := u32_of_lt (by omega)
    have rest : u32Sub h.end_ (n * pageSize) = h.end_ - n * pageSize := u32Sub_of_le small (by omega)
    have remain : u32Sub (h.end_ - n * pageSize) h.heap = h.end_ - n * pageSize - h.heap :=
      u32Sub_of_le (by omega) (by omega)
    have spare : u32Sub (h.end_ - h.heap) h.minSize = h.end_ - h.heap - h.minSize := u32Sub_of_le (by omega) minimal
    simp only [contractCount, bytes, rest, remain, total, spare]
    split_ifs
    · have := Nat.div_mul_le_self (h.end_ - h.heap - h.minSize) pageSize
      omega
    · omega
  · omega

@[simp] theorem withEnd_end {e : Nat} : (h.withEnd e).end_ = e := rfl

@[simp] theorem withEnd_withEnd {e e' : Nat} : (h.withEnd e).withEnd e' = h.withEnd e' := rfl

@[simp] theorem withEnd_memory {e : Nat} : (h.withEnd e).memory = h.memory := rfl

@[simp] theorem withEnd_firstHeader {e : Nat} : (h.withEnd e).firstHeader = h.firstHeader := rfl

theorem contractLoop_spec (room : n * pageSize ≤ h.end_) (small : h.end_ < 2 ^ 32) (pages : h.end_ % pageSize = 0)
    (unmapped : List Nat) :
    ∃ ps, h.contractLoop n unmapped = (h.withEnd (h.end_ - n * pageSize), unmapped ++ ps) ∧
      ∀ page ∈ ps, h.end_ - n * pageSize ≤ page := by
  induction n generalizing h unmapped with
  | zero => exact ⟨[], by rw [contractLoop, Nat.zero_mul, Nat.sub_zero, List.append_nil]; rfl, by simp⟩
  | succ n ih =>
      rw [Nat.succ_mul] at *
      generalize made : h.withEnd (h.end_ - pageSize) = h₁
      have ends : h₁.end_ = h.end_ - pageSize := by rw [← made, withEnd_end]
      have moved : u32Sub h.end_ pageSize = h₁.end_ := by rw [ends, u32Sub_of_le small (by omega)]
      have aligned : h₁.end_ % pageSize = 0 := by rw [ends, ← Nat.mod_eq_sub_mod (by omega), pages]
      have last : h₁.end_ - n * pageSize = h.end_ - (n * pageSize + pageSize) := by omega
      -- the page lies behind the new end
      have same : (fun a => h.unmapped a || decide (h₁.end_ ≤ a) && decide (a < h₁.end_)) = h.unmapped := by
        funext a
        by_cases low : h₁.end_ ≤ a
        · simp [low, Nat.not_lt.mpr low]
        · simp [low]
      obtain ⟨ps, done, above⟩ := ih (h := h₁) (by omega) (by omega) aligned (unmapped ++ [h₁.end_])
      rw [last] at done above
      refine ⟨h₁.end_ :: ps, ?_, fun page member => ?_⟩
      · have step : h.contractLoop (n + 1) unmapped = h₁.contractLoop n (unmapped ++ [h₁.end_]) := by
          rw [contractLoop, moved, aligned, Nat.sub_zero, same, ends, ← made]
          rfl
        rw [step, done, List.append_assoc, List.singleton_append, ← made, withEnd_withEnd]
      · rcases List.mem_cons.mp member with rfl | inside
        · omega
        · exact above page inside

theorem WellFormed.shrink_last {r : Nat} (wf : h.WellFormed (front ++ [⟨r, false⟩])) (pages : h.end_ % pageSize = 0)
    (minimal : h.minSize ≤ h.end_ - h.heap) :
    ∃ m ps, h.shrink (endOf h.firstHeader front) = some ((h.withMemory m).withEnd (h.end_ - h.contractBy r * pageSize), ps) ∧
      m.word (endOf h.firstHeader front + 4) = u32Sub r (h.contractBy r * pageSize) ∧
      (∀ i, i < endOf h.firstHeader front + 4 ∨ endOf h.firstHeader front + 8 ≤ i → m i = h.memory i) ∧
      ∀ page ∈ ps, h.end_ - h.contractBy r * pageSize ≤ page := by
  have header := wf.headerAt
  have small := wf.small
  obtain ⟨low, high⟩ := wf.bounds
  obtain ⟨-, -, size, -, -⟩ := tiles_append.mp wf.tiles
  have ends := wf.ends
  simp only [endOf_append, endOf_cons, endOf_nil] at ends
  dsimp only at high size
  have order : h.heap ≤ h.end_ := by
    have : h.heap ≤ h.firstHeader := Nat.le_add_right _ _
    omega
  have bound := contractBy_le (r := r) order small minimal
  generalize place : endOf h.firstHeader front = b at *
  rw [shrink, header.next, Option.bind_eq_bind, Option.bind_some, if_pos (by dsimp only; omega), header.size, Option.bind_some]
  rw [contractBy] at bound ⊢
  dsimp only at bound ⊢
  split_ifs at bound ⊢ with contract
  · rw [heapContract]
    generalize h.contractCount _ = count at bound ⊢
    have bytes : u32 (count * pageSize) = count * pageSize := u32_of_lt (by omega)
    generalize left : u32Sub r (count * pageSize) = s
    have sLt : s < 2 ^ 32 := by
      rw [← left, u32Sub]
      omega
    generalize changed : h.memory.setWord (b + 4) s = m
    obtain ⟨ps, loop, above⟩ := contractLoop_spec (h := h.withMemory m) (n := count) (by rw [withMemory_end]; omega) small pages []
    refine ⟨m, ps, ?_, ?_, fun i outside => ?_, above⟩
    · rw [header.size, Option.bind_eq_bind, Option.bind_some, bytes, left, setSize, store_eq wf.mapped (by omega) (by omega), changed,
        Option.bind_eq_bind, Option.bind_some, loop]
      rfl
    · rw [← changed, Bytes.word_setWord sLt]
    · rw [← changed, Bytes.setWord_of_outside (by omega)]
  · refine ⟨h.memory, [], ?_, ?_, fun _ _ => rfl, by simp⟩
    · rw [Nat.zero_mul, Nat.sub_zero]
      rfl
    · rw [Nat.zero_mul, size, u32Sub_of_le (by omega) (Nat.zero_le _), Nat.sub_zero]

/-! ## `heap_free` -/

/-- The block of header `b` is freed: the heap is well formed and no smaller than it may be, no page of
another block in use is taken away, and these blocks are as they were. -/
def FreesSafely (h : Heap) (l : List Region) (b : Nat) : Prop :=
  ∃ h' unmapped l', h.heapFree (b + headerSize) = some (h', unmapped) ∧ h'.heap = h.heap ∧ h'.WellFormed l' ∧
    h.minSize ≤ h'.end_ - h'.heap ∧
    ∀ c q, (c, q) ∈ layout h.firstHeader l → q.used = true → c ≠ b →
      (∀ page ∈ unmapped, c + headerSize + q.size ≤ page ∨ page + pageSize ≤ c) ∧ (c, q) ∈ layout h'.firstHeader l' ∧
        ∀ i, c + headerSize ≤ i → i < c + headerSize + q.size → h'.memory i = h.memory i

/-- The pages taken from the end fit into the hole, or they are whole free regions. -/
def Spare (h : Heap) (g : Hole) : Prop :=
  g.back = [] → h.contractBy g.size * pageSize ≤ g.size ∨
    ∃ keep tail, g.regions = keep ++ tail ∧ (∀ q ∈ tail, q.used = false) ∧
      endOf h.firstHeader keep + h.contractBy g.size * pageSize = h.end_

theorem payload_of_keeps {i : Nat} (keeps : Keeps m m' (headers a l)) (member : (c, q) ∈ layout a l) (low : c + 12 ≤ i)
    (high : i < c + 12 + q.size) : m' i = m i := by
  refine keeps i fun b isHeader => ?_
  obtain ⟨⟨b, r⟩, there, rfl⟩ := List.mem_map.mp isHeader
  dsimp only
  rcases layout_apart member there with ⟨same, -⟩ | before | after <;> omega

-- what is in use, apart from the block
theorem used_joined_iff (used : q.used = true) :
    (c, q) ∈ layout a (Hole.mk front x back).joined.regions ↔
      (c, q) ∈ layout a (front ++ ⟨x, true⟩ :: back) ∧ c ≠ endOf a front := by
  have notFree : q ≠ ⟨x, false⟩ := by
    rintro rfl
    cases used
  rw [(Hole.coarser_joined _).used c q used]
  simp only [Hole.regions, layout_append, layout_cons, List.mem_append, List.mem_cons, Prod.mk.injEq, notFree, and_false,
    false_or]
  constructor
  · rintro (before | behind)
    · have := (layout_bounds before).2
      exact ⟨.inl before, by omega⟩
    · have := (layout_bounds behind).1
      exact ⟨.inr (.inr behind), by omega⟩
  · rintro ⟨before | ⟨same, -⟩ | behind, other⟩
    · exact .inl before
    · exact absurd same other
    · exact .inr behind

theorem Tiles.prefix_of_size {prev prev' : Nat} {z : Region} (new : Tiles m' a prev l') (old : Tiles m a prev' (l ++ [z]))
    (short : endOf a l' < endOf a l + 12) (same : ∀ i, i < endOf a l + 4 → m' i = m i) : l' <+: l := by
  induction l' generalizing a prev prev' l with
  | nil => exact List.nil_prefix
  | cons q l' ih =>
      have inside := le_endOf (a + 12 + q.size) l'
      rw [endOf_cons] at short
      cases l with
      | nil =>
          rw [endOf_nil] at short
          omega
      | cons w l =>
          obtain ⟨magic, size, -, rest⟩ := new
          obtain ⟨magic', size', -, rest'⟩ := old
          have behind := le_endOf (a + 12 + w.size) l
          rw [endOf_cons] at short same
          rw [Bytes.word_congr fun i _ upper => same i (by omega)] at magic size
          have used : q.used = w.used := by
            rw [magic'] at magic
            cases free : q.used with
            | false => exact (Region.magic_eq_free.mp (magic.trans (Region.magic_eq_free.mpr free))).symm
            | true => exact (Region.magic_eq_used.mp (magic.trans (Region.magic_eq_used.mpr free))).symm
          have equal : q = w := by
            obtain ⟨s, u⟩ := q
            obtain ⟨s', u'⟩ := w
            cases used
            have : s' = s := size'.symm.trans size
            rw [this]
          subst equal
          exact List.cons_prefix_cons.mpr ⟨rfl, ih rest rest' short same⟩

theorem mem_of_layout (member : (c, q) ∈ layout a l) : q ∈ l := by
  obtain ⟨front, back, rfl, -⟩ := exists_split_of_mem member
  simp

theorem exists_mem_layout (a : Nat) (member : q ∈ l) : ∃ c, (c, q) ∈ layout a l := by
  obtain ⟨front, back, rfl⟩ := List.append_of_mem member
  exact ⟨endOf a front, by simp⟩

theorem Spare.settled_prefix (wf : h.WellFormed g.regions) (pages : h.end_ % pageSize = 0)
    (minimal : h.minSize ≤ h.end_ - h.heap) (spare : h.Spare g) :
    ∃ m ps e l', h.shrink (endOf h.firstHeader g.front) = some ((h.withMemory m).withEnd e, ps) ∧
      ((h.withMemory m).withEnd e).WellFormed l' ∧ h.minSize ≤ e - h.heap ∧
      Keeps h.memory m (headers h.firstHeader g.regions) ∧ (∀ page ∈ ps, e ≤ page) ∧
      (∀ c q, q.used = true → ((c, q) ∈ layout h.firstHeader g.regions ↔ (c, q) ∈ layout h.firstHeader l')) ∧
      l'.map Region.used <+: g.regions.map Region.used ∧ e ≤ h.end_ ∧ e % pageSize = 0 := by
  have small := wf.small
  have header := wf.headerAt
  by_cases last : g.back = []
  · have regions : g.regions = g.front ++ [⟨g.size, false⟩] := by rw [Hole.regions, last]
    rw [regions] at wf ⊢
    obtain ⟨m, ps, done, size, kept, above⟩ := wf.shrink_last pages minimal
    obtain ⟨before, magic, -, prev, -⟩ := tiles_append.mp wf.tiles
    obtain ⟨low, high⟩ := wf.bounds
    have ends := wf.ends
    have order : h.heap ≤ h.end_ := by
      have : h.heap ≤ h.firstHeader := Nat.le_add_right _ _
      omega
    have bound := contractBy_le (r := g.size) order small minimal
    have keeps : Keeps h.memory m (headers h.firstHeader (g.front ++ [⟨g.size, false⟩])) := fun i outside => by
      have := outside (endOf h.firstHeader g.front) (by simp [headers])
      exact kept i (by omega)
    simp only [endOf_append, endOf_cons, endOf_nil] at ends
    have floor : h.minSize ≤ h.end_ - h.contractBy g.size * pageSize - h.heap := by omega
    have taken : (h.end_ - h.contractBy g.size * pageSize) % pageSize = 0 := by
      rw [pageSize] at pages ⊢
      omega
    have spare' := spare last
    have mapped : ((h.withMemory m).withEnd (h.end_ - h.contractBy g.size * pageSize)).Mapped := fun a low high =>
      wf.mapped a low (Nat.lt_of_lt_of_le high (Nat.sub_le _ _))
    generalize h.contractBy g.size * pageSize = n at *
    generalize place : endOf h.firstHeader g.front = b at *
    by_cases fits : n ≤ g.size
    · have left : u32Sub g.size n = g.size - n := u32Sub_of_le (by omega) fits
      refine ⟨m, ps, _, g.front ++ [⟨g.size - n, false⟩], done, ⟨?_, ?_, ?_, mapped⟩, floor, keeps, above,
        fun c q used => ?_, by simp, Nat.sub_le _ _, taken⟩
      · rw [withEnd_memory, withEnd_firstHeader, withMemory_memory, withMemory_firstHeader]
        refine tiles_append.mpr ⟨before.congr fun i _ below => kept i (by omega), ?_⟩
        rw [place]
        refine ⟨?_, by rw [size, left], ?_, trivial⟩
        · rw [Bytes.word_congr fun i _ upper => kept i (by omega), magic]
          rfl
        · rw [Bytes.word_congr fun i _ upper => kept i (by omega), prev]
      · simp only [withEnd_firstHeader, withMemory_firstHeader, withEnd_end, endOf_append, endOf_cons, endOf_nil, place]
        omega
      · rw [withEnd_end]
        omega
      · have notFree (s : Nat) : q ≠ ⟨s, false⟩ := by
          rintro rfl
          cases used
        simp [layout_append, notFree]
    · obtain ⟨keep, tail, split, free, boundary⟩ := spare'.resolve_left fits
      rw [regions] at split
      -- the last header goes with the pages
      obtain ⟨tail', inFront⟩ : ∃ tail', g.front = keep ++ tail' := by
        rcases List.eq_nil_or_concat tail with rfl | ⟨tail', z, rfl⟩
        · rw [List.append_nil] at split
          rw [← split, endOf_append, place] at boundary
          simp only [endOf_cons, endOf_nil] at boundary
          omega
        · rw [List.concat_eq_append, ← List.append_assoc] at split
          exact ⟨tail', (List.append_inj' split rfl).1⟩
      have inside : endOf h.firstHeader keep ≤ b := by
        rw [← place, inFront, endOf_append]
        exact le_endOf _ _
      refine ⟨m, ps, _, keep, done, ⟨?_, ?_, ?_, mapped⟩, floor, keeps, above, fun c q used => ⟨fun member => ?_, fun member => ?_⟩, ?_,
        Nat.sub_le _ _, taken⟩
      · rw [inFront] at before
        exact (tiles_append.mp before).1.congr fun i _ below => kept i (by omega)
      · rw [withEnd_firstHeader, withMemory_firstHeader, withEnd_end]
        omega
      · rw [withEnd_end]
        omega
      · rw [split, layout_append] at member
        rcases List.mem_append.mp member with kept | gone
        · exact kept
        · rw [free q (mem_of_layout gone)] at used
          cases used
      · rw [split, layout_append]
        exact List.mem_append_left _ member
      · rw [split, List.map_append]
        exact List.prefix_append ..
  · have next : endOf h.firstHeader g.front + 12 + g.size < h.end_ := by
      have ends := wf.ends
      obtain ⟨q, back, some_⟩ := List.exists_cons_of_ne_nil last
      have := le_endOf (endOf h.firstHeader g.front + 12 + g.size + 12 + q.size) back
      rw [Hole.regions, some_] at ends
      simp only [endOf_append, endOf_cons] at ends
      omega
    refine ⟨h.memory, [], h.end_, g.regions, ?_, wf, minimal, fun _ _ => rfl, by simp, fun _ _ _ => Iff.rfl, List.prefix_rfl, le_rfl,
      pages⟩
    rw [shrink, header.next, Option.bind_eq_bind, Option.bind_some, if_neg (by dsimp only; omega)]
    rfl

theorem Spare.settled (wf : h.WellFormed g.regions) (pages : h.end_ % pageSize = 0) (minimal : h.minSize ≤ h.end_ - h.heap)
    (spare : h.Spare g) :
    ∃ m ps e l', h.shrink (endOf h.firstHeader g.front) = some ((h.withMemory m).withEnd e, ps) ∧
      ((h.withMemory m).withEnd e).WellFormed l' ∧ h.minSize ≤ e - h.heap ∧
      Keeps h.memory m (headers h.firstHeader g.regions) ∧ (∀ page ∈ ps, e ≤ page) ∧
      ∀ c q, q.used = true → (c, q) ∈ layout h.firstHeader g.regions → (c, q) ∈ layout h.firstHeader l' := by
  obtain ⟨m, ps, e, l', done, wf', floor, keeps, above, same, -⟩ := spare.settled_prefix wf pages minimal
  exact ⟨m, ps, e, l', done, wf', floor, keeps, above, fun c q used => (same c q used).mp⟩

theorem WellFormed.spare {h' : Heap} {ps : List Nat} (wf : h.WellFormed g.regions) (pages : h.end_ % pageSize = 0)
    (minimal : h.minSize ≤ h.end_ - h.heap) (done : h.shrink (endOf h.firstHeader g.front) = some (h', ps))
    (wf' : h'.WellFormed l')
    (blocks : ∀ c q, q.used = true → (c, q) ∈ layout h.firstHeader g.regions → (c, q) ∈ layout h'.firstHeader l') :
    h.Spare g := by
  intro last
  have regions : g.regions = g.front ++ [⟨g.size, false⟩] := by rw [Hole.regions, last]
  rw [regions] at wf blocks ⊢
  obtain ⟨m, ps', done', size, kept, -⟩ := wf.shrink_last pages minimal
  have ends := wf.ends
  have ends' := wf'.ends
  have tiles' := wf'.tiles
  have order : h.heap ≤ h.end_ := by
    have : h.heap ≤ h.firstHeader := Nat.le_add_right _ _
    have := wf.bounds
    omega
  have bound := contractBy_le (r := g.size) order wf.small minimal
  rw [done] at done'
  cases done'
  simp only [withEnd_firstHeader, withMemory_firstHeader, withEnd_end, withEnd_memory, withMemory_memory] at ends' tiles' blocks
  simp only [endOf_append, endOf_cons, endOf_nil] at ends
  generalize h.contractBy g.size * pageSize = n at *
  by_cases fits : n ≤ g.size
  · exact .inl fits
  · obtain ⟨tail, split⟩ := Tiles.prefix_of_size tiles' wf.tiles (by omega) fun i below => kept i (.inl below)
    refine .inr ⟨l', tail ++ [⟨g.size, false⟩], by rw [← split, List.append_assoc], fun q member => ?_, by omega⟩
    -- a block in use would lie behind the new end
    by_contra used
    rw [Bool.not_eq_false] at used
    obtain ⟨c, behind⟩ := exists_mem_layout (endOf h.firstHeader l') member
    have low := (layout_bounds behind).1
    have high := (layout_bounds (blocks c q used (by
      rw [← split, List.append_assoc, layout_append]
      exact List.mem_append_right _ behind))).2
    omega

theorem freesSafely_iff (wf : h.WellFormed (front ++ ⟨x, true⟩ :: back)) (pages : h.end_ % pageSize = 0)
    (minimal : h.minSize ≤ h.end_ - h.heap) :
    h.FreesSafely (front ++ ⟨x, true⟩ :: back) (endOf h.firstHeader front) ↔ h.Spare (Hole.mk front x back).joined := by
  have header : headerSize = 12 := rfl
  obtain ⟨m, done, wf₁, keeps⟩ := wf.heapFree
  have sameSpare : (h.withMemory m).Spare (Hole.mk front x back).joined ↔ h.Spare (Hole.mk front x back).joined := Iff.rfl
  rw [← sameSpare]
  constructor
  · rintro ⟨h', ps, l', freed, -, wf', -, blocks⟩
    rw [done] at freed
    exact wf₁.spare pages minimal freed wf' fun c q used member => by
      obtain ⟨there, other⟩ := (used_joined_iff used).mp member
      exact (blocks c q there used other).2.1
  · intro spare
    obtain ⟨m', ps, e, l', shrunk, wf', floor, keeps', above, blocks⟩ := spare.settled wf₁ pages minimal
    refine ⟨_, ps, l', done.trans shrunk, rfl, wf', floor, fun c q member used other => ?_⟩
    have there := blocks c q used ((used_joined_iff used).mpr ⟨member, other⟩)
    have inside := (layout_bounds there).2
    have ends := wf'.ends
    refine ⟨fun page unmapped => ?_, there, fun i low high => ?_⟩
    · have := above page unmapped
      rw [withEnd_firstHeader, withEnd_end, withMemory_firstHeader, withMemory_firstHeader] at ends
      rw [withMemory_firstHeader] at inside
      exact .inl (by omega)
    · have before : m i = h.memory i := payload_of_keeps keeps member (by omega) (by omega)
      rw [← before]
      exact payload_of_keeps keeps' ((used_joined_iff used).mpr ⟨member, other⟩) (by omega) (by omega)

/-! ## Two blocks in a heap of ten pages -/

section TenPages

-- the first block has `s` bytes and the second one the rest
def tenPages (s : Nat) : Heap where
  heap := 8192
  end_ := 49152
  maxAddr := 90112
  minSize := 4096
  memory := ((((Bytes.setWord (fun _ => 0) 8206 heapUsedMagic).setWord 8210 s).setWord (8218 + s) heapUsedMagic).setWord
    (8222 + s) (40922 - s)).setWord (8226 + s) 8206
  unmapped _ := false

theorem tenPages_wellFormed {s : Nat} (known : s = 100 ∨ s = 40822) :
    (tenPages s).WellFormed ([⟨s, true⟩] ++ [⟨40922 - s, true⟩]) := by
  rcases known with rfl | rfl <;>
    exact ⟨⟨by decide, by decide, by decide, by decide, by decide, by decide,
      trivial⟩, rfl, by decide, fun _ _ _ => rfl⟩

theorem freesSafely_iff_large_block :
    (tenPages 100).FreesSafely ([⟨100, true⟩] ++ ⟨40822, true⟩ :: []) 8318 :=
  (freesSafely_iff (x := 40822) (tenPages_wellFormed (.inl rfl)) rfl (by decide)).mpr
    fun _ => .inl (by decide)

/-- A small block at the end of a large heap takes pages of the block before it along. -/
theorem small_block_unmaps_neighbour :
    ¬ ∀ (h : Heap) (front back : List Region) (x : Nat), h.WellFormed (front ++ ⟨x, true⟩ :: back) →
        h.end_ % pageSize = 0 → h.minSize ≤ h.end_ - h.heap →
        h.FreesSafely (front ++ ⟨x, true⟩ :: back) (endOf h.firstHeader front) := by
  intro always
  obtain ⟨h', ps, l', done, heap, wf', -, blocks⟩ := always (tenPages 40822) [⟨40822, true⟩] [] 100
    (tenPages_wellFormed (.inr rfl)) rfl (by decide)
  have ends : ((tenPages 40822).heapFree (endOf (tenPages 40822).firstHeader [⟨40822, true⟩] + headerSize)).any
      (fun r => r.1.end_ == 32768) = true := by decide
  rw [done, Option.any_some, beq_iff_eq] at ends
  have there := (blocks 8206 ⟨40822, true⟩ (by simp [tenPages, firstHeader, heapSize]) rfl
    (by simp [tenPages, firstHeader, heapSize])).2.1
  have inside := (layout_bounds there).2
  rw [wf'.ends, ends] at inside
  dsimp only at inside
  omega

end TenPages
end Heap
end Kerosene.Mem
