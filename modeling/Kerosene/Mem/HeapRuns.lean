import Kerosene.Lib.Machine
import Kerosene.Mem.HeapMerge

/-!
# Runs of the kernel heap

Blocks are allocated, written and freed in any order. The regions in use are the blocks, and each keeps what was written to it.
-/

namespace Kerosene.Mem
open Lib

variable {m m' : Bytes} {a b c prev f n size : Nat} {front back l l' : List Region} {q r : Region} {h h₀ h' : Heap}
  {pages : Pages}

theorem Tiles.of_headers (tiles : Tiles m a prev l) (same : ∀ q ∈ layout a l, ∀ i, q.1 ≤ i → i < q.1 + 12 → m' i = m i) :
    Tiles m' a prev l := by
  induction l generalizing a prev with
  | nil => trivial
  | cons r l ih =>
      obtain ⟨magic, size, back, rest⟩ := tiles
      have here : ∀ i, a ≤ i → i < a + 12 → m' i = m i := same (a, r) List.mem_cons_self
      refine ⟨?_, ?_, ?_, ih rest fun q member => same q (List.mem_cons_of_mem _ member)⟩
      · rw [Bytes.word_congr fun i low high => here i low (by omega), magic]
      · rw [Bytes.word_congr fun i low high => here i (by omega) (by omega), size]
      · rw [Bytes.word_congr fun i low high => here i (by omega) (by omega), back]

theorem Tiles.unique {prev' : Nat} (tiles : Tiles m a prev l) (tiles' : Tiles m a prev' l') (ends : endOf a l = endOf a l') :
    l = l' := by
  induction l generalizing a prev prev' l' with
  | nil =>
      cases l' with
      | nil => rfl
      | cons r l' =>
          have := le_endOf (a + 12 + r.size) l'
          rw [endOf_nil, endOf_cons] at ends
          omega
  | cons r l ih =>
      cases l' with
      | nil =>
          have := le_endOf (a + 12 + r.size) l
          rw [endOf_nil, endOf_cons] at ends
          omega
      | cons r' l' =>
          obtain ⟨magic, size, -, rest⟩ := tiles
          obtain ⟨magic', size', -, rest'⟩ := tiles'
          have sizes : r.size = r'.size := size.symm.trans size'
          have used : r.used = r'.used := by
            have same : r.magic = r'.magic := magic.symm.trans magic'
            rw [Bool.eq_iff_iff, ← Region.magic_eq_used, same, Region.magic_eq_used]
          obtain ⟨s, u⟩ := r
          cases sizes
          cases used
          rw [ih rest rest' ends]

namespace Heap

def InUse (h : Heap) (l : List Region) (c : Nat) (q : Region) : Prop := (c, q) ∈ layout h.firstHeader l ∧ q.used = true

/-- A heap as the calls leave it. -/
structure Ready (h : Heap) (l : List Region) : Prop where
  wf : h.WellFormed l
  apart : NoAdjacentFree l
  start : h.heap % pageSize = 0
  pages : h.end_ % pageSize = 0
  minimal : h.minSize ≤ h.end_ - h.heap
  inside : h.end_ ≤ h.maxAddr
  address : h.maxAddr < 2 ^ 32

theorem Ready.nonempty (ready : h.Ready l) : l ≠ [] := by
  rintro rfl
  have ends : h.firstHeader = h.end_ := ready.wf.ends
  have start := ready.start
  have pages := ready.pages
  rw [firstHeader, heapSize] at ends
  rw [pageSize] at start pages
  omega

theorem Ready.exists_last (ready : h.Ready l) : ∃ front r, l = front ++ [r] := by
  obtain ⟨front, r, rfl⟩ := (List.eq_nil_or_concat l).resolve_left ready.nonempty
  exact ⟨front, r, List.concat_eq_append⟩

/-! ## Taking a block from a free region -/

-- no byte outside of the headers is written
def Headers (h : Heap) (l : List Region) (i : Nat) : Prop := ∃ q ∈ layout h.firstHeader l, q.1 ≤ i ∧ i < q.1 + 12

theorem not_headers_iff {i : Nat} : ¬ h.Headers l i ↔ ∀ q ∈ layout h.firstHeader l, i < q.1 ∨ q.1 + 12 ≤ i := by
  simp only [Headers, not_exists, not_and, not_lt]
  exact forall_congr' fun q => forall_congr' fun _ => ⟨fun outside => by by_contra; omega, fun outside low => by omega⟩

theorem InUse.notHeaders {i : Nat} (inUse : h.InUse l c q) (low : c + headerSize ≤ i) (high : i < c + headerSize + q.size) :
    ¬ h.Headers l i := by
  rintro ⟨⟨b, r⟩, there, above, below⟩
  dsimp only at above below
  rw [headerSize] at low high
  rcases layout_apart inUse.1 there with ⟨same, -⟩ | before | after <;> omega

/-- The call returns the block behind `b`, and changes headers only. -/
structure Takes (h h' : Heap) (l l' : List Region) (b size : Nat) : Prop where
  ready : h'.Ready l'
  heap : h'.heap = h.heap
  least : h'.minSize = h.minSize
  block : ∃ r, r.used = true ∧ size ≤ r.size ∧ ∀ c q, h'.InUse l' c q ↔ h.InUse l c q ∨ c = b ∧ q = r
  fresh : ∀ q, ¬ h.InUse l b q
  kept : ∀ i, h.firstHeader ≤ i → i < h.end_ → ¬ h'.Headers l' i → h'.memory i = h.memory i

theorem Ready.takes (ready : h.Ready (front ++ ⟨f, false⟩ :: back)) (room : size + headerSize ≤ f)
    (found : h₀.findHeader size false pages = some (some (endOf h.firstHeader front), h)) :
    ∃ h' l', h₀.heapAlloc size false pages = some (some (endOf h.firstHeader front + headerSize), h') ∧
      h.Takes h' (front ++ ⟨f, false⟩ :: back) l' (endOf h.firstHeader front) size := by
  have wf := ready.wf
  have bounds := wf.bounds
  have small := wf.small
  have header : headerSize = 12 := rfl
  dsimp only at bounds
  obtain ⟨m₁, split, wf₁, kept₁⟩ := wf.splitRegion_keeps room
  obtain ⟨s, low, -, into⟩ := splitInto_of_room room
  generalize rest_ : (if f - size ≥ headerSize + minRegionSize then [⟨f - size - headerSize, false⟩] else [] : List Region) =
    rest at into
  have ends := endOf_splitInto (a := endOf h.firstHeader front) f size
  rw [into, List.append_assoc, List.cons_append] at wf₁ kept₁
  obtain ⟨m₂, marked, wf₂, kept₂⟩ := wf₁.setMagic (u := true)
  simp only [withMemory_withMemory, withMemory_firstHeader, withMemory_memory] at marked wf₂ kept₂
  rw [into, endOf_cons] at ends
  have restFree : ∀ r ∈ rest, r.used = false := by
    subst rest_
    split_ifs <;> simp
  refine ⟨h.withMemory m₂, _, ?_, ⟨wf₂, ?_, ready.start, ready.pages, ready.minimal, ready.inside, ready.address⟩, rfl,
    rfl, ⟨⟨s, true⟩, rfl, low, fun c q => ?_⟩, ?_, fun i above below outside => ?_⟩
  · rw [heapAlloc_some found, u32_of_lt (by omega), split, Option.bind_some]
    have used : (h.withMemory m₁).setMagic (endOf h.firstHeader front) heapUsedMagic = some (h.withMemory m₂) := marked
    rw [used, Option.bind_some, u32_of_lt (by omega)]
  · obtain ⟨frontApart, backApart, -, next⟩ := noAdjacentFree_append_cons.mp ready.apart
    refine noAdjacentFree_append_cons.mpr ⟨frontApart, ?_, fun _ _ => .inr rfl, fun _ _ => .inl rfl⟩
    subst rest_
    split_ifs
    · rw [NoAdjacentFree, List.singleton_append, List.isChain_cons]
      exact ⟨next, backApart⟩
    · exact backApart
  · have notRest (b : Nat) (used : q.used = true) : (c, q) ∉ layout b rest := fun member => by
      rw [restFree q (mem_of_layout member)] at used
      cases used
    have notFree (used : q.used = true) : q ≠ ⟨f, false⟩ := by
      rintro rfl
      cases used
    by_cases used : q.used = true
    · simp only [InUse, used, and_true, withMemory_firstHeader, layout_append, layout_cons, List.mem_append, List.mem_cons,
        Prod.mk.injEq, notRest _ used, notFree used, and_false, false_or, ends]
      tauto
    · have other : q ≠ ⟨s, true⟩ := by
        rintro rfl
        exact used rfl
      simp [InUse, used, other]
  · rintro q ⟨member, used⟩
    have here : (endOf h.firstHeader front, ⟨f, false⟩) ∈ layout h.firstHeader (front ++ ⟨f, false⟩ :: back) := by simp
    rcases layout_apart member here with ⟨-, rfl⟩ | before | after
    · cases used
    · omega
    · dsimp only at after
      omega
  · have inHeaders := not_headers_iff.mp outside
    rw [withMemory_firstHeader] at inHeaders
    have here := inHeaders (endOf h.firstHeader front, ⟨s, true⟩) (by simp)
    rw [withMemory_memory, kept₂ i here]
    refine kept₁ i fun q member => ?_
    rw [layout_append, layout_cons] at member
    rcases List.mem_append.mp member with inFront | behind
    · exact inHeaders q (by simp [inFront])
    · rcases List.mem_cons.mp behind with rfl | behind
      · exact here
      · exact inHeaders q (by rw [layout_append]; exact List.mem_append_right _ (List.mem_cons_of_mem _ behind))

/-! ## Growing -/

theorem heapExpand_kept {err : Bool} {last : Nat} (aligned : h.end_ % pageSize = 0)
    (done : h.heapExpand n last pages = some (err, h')) :
    h'.heap = h.heap ∧ h'.maxAddr = h.maxAddr ∧ h'.minSize = h.minSize ∧
      ∀ i, i < h.end_ → i < last ∨ last + 12 ≤ i → h'.memory i = h.memory i := by
  rw [Heap.heapExpand] at done
  split_ifs at done with full
  · cases done
    exact ⟨rfl, rfl, rfl, fun _ _ _ => rfl⟩
  cases supplied : allocPages n pages with
  | none =>
      rw [supplied] at done
      cases done
      exact ⟨rfl, rfl, rfl, fun _ _ _ => rfl⟩
  | some frames =>
      -- the new pages begin behind what the heap had
      have old (i : Nat) (inside : i < h.end_) : ¬ frames.covers h.end_ n i = true := by
        have page : pageSize = 4096 := rfl
        simp only [Frames.covers, Bool.and_eq_true, decide_eq_true_eq]
        rw [page] at aligned ⊢
        omega
      simp only [supplied, Option.bind_eq_bind, Option.bind_eq_some_iff] at done
      obtain ⟨magic, -, done⟩ := done
      split_ifs at done
      · simp only [Option.bind_eq_some_iff, setSize, Option.pure_def, Option.some.injEq, Prod.mk.injEq] at done
        obtain ⟨size, -, h₁, stored, -, rfl⟩ := done
        rw [store_withMemory stored]
        refine ⟨rfl, rfl, rfl, fun i inside outside => ?_⟩
        rw [withMemory_memory, Bytes.setWord_of_outside (by omega)]
        exact if_neg (old i inside)
      · simp only [Option.bind_eq_some_iff, setHeader, setMagic, setSize, Heap.setPrev, Option.pure_def, Option.some.injEq,
          Prod.mk.injEq, Option.bind_eq_bind] at done
        obtain ⟨h₃, ⟨h₁, first, h₂, second, third⟩, -, rfl⟩ := done
        rw [store_withMemory third, store_withMemory second, store_withMemory first]
        refine ⟨rfl, rfl, rfl, fun i inside outside => ?_⟩
        simp only [withMemory_memory]
        rw [Bytes.setWord_of_outside (by omega), Bytes.setWord_of_outside (by omega), Bytes.setWord_of_outside (by omega)]
        exact if_neg (old i inside)

theorem Ready.expands {frames : Frames} (ready : h.Ready (front ++ [⟨f, false⟩])) (noFit : NoFit (front ++ [⟨f, false⟩]) size)
    (fits : size + headerSize < 2 ^ 32) (room : h.end_ + n * pageSize ≤ h.maxAddr) (some_ : n ≠ 0)
    (count : pagesNeeded size (some ⟨f, false⟩) = n) (all : ∀ i < n, frames.mapped i = true) :
    ∃ h₁, h.findHeader size false (some frames) = some (some (endOf h.firstHeader front), h₁) ∧
      h₁.Ready (front ++ [⟨f + n * pageSize, false⟩]) ∧ h₁.heap = h.heap ∧ h₁.minSize = h.minSize ∧ h.end_ ≤ h₁.end_ ∧
      ∀ i, i < h.end_ → i < endOf h.firstHeader front ∨ endOf h.firstHeader front + 12 ≤ i → h₁.memory i = h.memory i := by
  subst count
  obtain ⟨h₁, expanded, wf₁, heap, ends⟩ :=
    ready.wf.heapExpand (Nat.pos_of_ne_zero some_) room ready.address ready.pages all
  have found : h.findHeader size false (some frames) = some (some (endOf h.firstHeader front), h₁) := by
    rw [ready.wf.findHeader_eq noFit fits room ready.address, expanded]
    rfl
  obtain ⟨-, limit, minimum, kept⟩ := heapExpand_kept ready.pages expanded
  have pages := ready.pages
  have minimal := ready.minimal
  refine ⟨h₁, found, ⟨wf₁, ?_, by rw [heap]; exact ready.start, ?_, ?_, ?_, by rw [limit]; exact ready.address⟩, heap,
    minimum, ?_, kept⟩
  · obtain ⟨frontApart, backApart, before, behind⟩ := noAdjacentFree_append_cons.mp ready.apart
    exact noAdjacentFree_append_cons.mpr ⟨frontApart, backApart, before, behind⟩
  · rw [ends, Nat.add_mul_mod_self_right, pages]
  · rw [minimum, heap, ends]
    omega
  · rw [limit, ends]
    exact room
  · rw [ends]
    exact Nat.le_add_right _ _

theorem WellFormed.neededSize_used (wf : h.WellFormed (front ++ [⟨f, true⟩]))
    (room : pagesNeeded size (some ⟨f, true⟩) * pageSize < 2 ^ 32) :
    h.neededSize size (endOf h.firstHeader front) false = some (pagesNeeded size (some ⟨f, true⟩) * pageSize) := by
  have header := wf.headerAt
  have magic : Region.magic ⟨f, true⟩ = heapUsedMagic := rfl
  have count : pagesNeeded size (some ⟨f, true⟩) = (size + headerSize + (pageSize - 1)) / pageSize := rfl
  rw [count] at room ⊢
  simp only [Heap.neededSize, neededFrom, header.magic, if_pos magic, Option.bind_eq_bind, Option.bind_some, Option.pure_def,
    Bool.false_eq_true, if_false, Option.some.injEq]
  rw [headerSize, pageSize] at *
  rw [u32_of_lt (by omega)]
  split_ifs with partly
  · rw [u32_of_lt (by omega)]
    omega
  · omega

theorem Ready.refused (ready : h.Ready l) (noFit : NoFit l size) (fits : size + headerSize < 2 ^ 32)
    (address : h.end_ + pagesNeeded size l.getLast? * pageSize < 2 ^ 32)
    (refused : h.maxAddr < h.end_ + pagesNeeded size l.getLast? * pageSize ∨
      allocPages (pagesNeeded size l.getLast?) pages = none) :
    h.heapAlloc size false pages = some (none, h) := by
  obtain ⟨front, ⟨f, used⟩, rfl⟩ := ready.exists_last
  rw [List.getLast?_concat] at address refused
  have needed : h.neededSize size (endOf h.firstHeader front) false = some (pagesNeeded size (some ⟨f, used⟩) * pageSize) := by
    cases used with
    | true => exact ready.wf.neededSize_used (by omega)
    | false => exact ready.wf.neededSize (noFit ⟨f, false⟩ (by simp) rfl) fits (by omega)
  generalize pagesNeeded size (some ⟨f, used⟩) = n at *
  have page : 0 < pageSize := by decide
  have expanded : h.heapExpand n (endOf h.firstHeader front) pages = some (true, h) := by
    rw [heapExpand, u32_of_lt address]
    split_ifs with full
    · rfl
    · rw [refused.resolve_left (by omega)]
      rfl
  refine heapAlloc_null ?_
  simp only [findHeader, ready.wf.findLoop noFit fits, Nat.lt_irrefl, if_false, needed, Option.bind_eq_bind, Option.bind_some,
    Nat.mul_div_cancel n page, expanded, if_true]
  rfl

/-! ## `kmalloc` and `kfree` -/

def kmalloc (h : Heap) (size : Nat) (pages : Pages) : Option (Option Nat × Heap) := h.heapAlloc size false pages

def kfree (h : Heap) (addr : Nat) : Option (Heap × List Nat) := h.heapFree addr

/-- Where no region fits, the heap grows only behind a free region, which then has room for the block and one more header, and by
pages that are all mapped. -/
def GrowsWell (h : Heap) (size : Nat) (pages : Pages) : Prop :=
  ∀ l, h.WellFormed l → NoFit l size → h.end_ + pagesNeeded size l.getLast? * pageSize < 2 ^ 32 ∧
    (h.MayGrow l size pages → pagesNeeded size l.getLast? = 0 ∨
      ∃ f, l.getLast? = some ⟨f, false⟩ ∧ size + headerSize ≤ f + pagesNeeded size l.getLast? * pageSize ∧
        ∀ frames ∈ pages, ∀ i < pagesNeeded size l.getLast?, frames.mapped i = true)

/-- The pages that are given back are whole free regions, or are taken from one. -/
def KeepsPages (h : Heap) (addr : Nat) : Prop :=
  ∀ front x back, h.WellFormed (front ++ ⟨x, true⟩ :: back) → endOf h.firstHeader front + headerSize = addr →
    h.Spare (Hole.mk front x back).joined

theorem exists_first_fit (fit : ¬ NoFit l size) :
    ∃ front f back, l = front ++ ⟨f, false⟩ :: back ∧ NoFit front size ∧ size + headerSize ≤ f := by
  induction l with
  | nil => exact absurd (List.forall_mem_nil _) fit
  | cons r l ih =>
      obtain ⟨s, used⟩ := r
      by_cases here : used = false ∧ size + headerSize ≤ s
      · obtain ⟨rfl, enough⟩ := here
        exact ⟨[], s, l, rfl, List.forall_mem_nil _, enough⟩
      · have skipped : NoFit [⟨s, used⟩] size := by
          intro r member free
          cases List.mem_singleton.mp member
          by_contra enough
          exact here ⟨free, Nat.le_of_not_lt enough⟩
        have later : ¬ NoFit l size := fun noFit => fit fun r member free => by
          rcases List.mem_cons.mp member with rfl | member
          · exact skipped _ List.mem_cons_self free
          · exact noFit r member free
        obtain ⟨front, f, back, rfl, first, enough⟩ := ih later
        refine ⟨⟨s, used⟩ :: front, f, back, rfl, fun r member free => ?_, enough⟩
        rcases List.mem_cons.mp member with rfl | member
        · exact skipped _ List.mem_cons_self free
        · exact first r member free

theorem inUse_last {s : Nat} (same : h'.heap = h.heap) :
    h'.InUse (front ++ [⟨s, false⟩]) c q ↔ h.InUse (front ++ [⟨f, false⟩]) c q := by
  have first : h'.firstHeader = h.firstHeader := by rw [firstHeader, same, firstHeader]
  have notFree (used : q.used = true) (s : Nat) : q ≠ ⟨s, false⟩ := by
    rintro rfl
    cases used
  simp only [InUse, first, and_congr_left_iff]
  intro used
  simp [layout_append, notFree used]

theorem Ready.kmalloc (ready : h.Ready l) (fits : size + headerSize < 2 ^ 32) (well : h.GrowsWell size pages) :
    h.kmalloc size pages = some (none, h) ∧ NoFit l size ∨
      ∃ b h' l', h.kmalloc size pages = some (some (b + headerSize), h') ∧ h.Takes h' l l' b size := by
  by_cases noFit : NoFit l size
  · obtain ⟨address, grows⟩ := well l ready.wf noFit
    by_cases grow : h.MayGrow l size pages ∧ pagesNeeded size l.getLast? ≠ 0
    · obtain ⟨grow, some_⟩ := grow
      obtain ⟨f, last, room, mapped⟩ := (grows grow).resolve_left some_
      obtain ⟨front, r, rfl⟩ := ready.exists_last
      rw [List.getLast?_concat] at last
      cases last
      obtain ⟨frames, rfl⟩ := Option.isSome_iff_exists.mp grow.supplied
      have larger := grow.room
      rw [List.getLast?_concat] at larger some_ room mapped
      generalize count : pagesNeeded size (some ⟨f, false⟩) = n at *
      obtain ⟨h₁, found, ready₁, heap, least, longer, kept⟩ :=
        ready.expands noFit fits larger some_ count (mapped frames rfl)
      have first : h₁.firstHeader = h.firstHeader := by rw [firstHeader, heap, firstHeader]
      rw [← first] at found
      obtain ⟨h', l', done, takes⟩ := ready₁.takes room found
      rw [first] at done takes
      obtain ⟨r, used, enough, inUse⟩ := takes.block
      refine .inr ⟨endOf h.firstHeader front, h', l', done, takes.ready, takes.heap.trans heap, takes.least.trans least,
        ⟨r, used, enough, fun c q => ?_⟩, fun q => ?_, fun i low high outside => ?_⟩
      · rw [inUse, inUse_last heap]
      · rw [← inUse_last heap]
        exact takes.fresh q
      · obtain ⟨here, -⟩ := (inUse (endOf h.firstHeader front) r).mpr (.inr ⟨rfl, rfl⟩)
        rw [takes.kept i (by omega) (by omega) outside]
        exact kept i high (not_headers_iff.mp outside _ here)
    · refine .inl ⟨ready.refused noFit fits address ?_, noFit⟩
      by_contra more
      rw [not_or, not_lt] at more
      obtain ⟨room, supplied⟩ := more
      rw [allocPages] at supplied
      split_ifs at supplied with none
      · exact supplied rfl
      · exact grow ⟨⟨room, ready.address, Option.isSome_iff_ne_none.mpr supplied⟩, none⟩
  · obtain ⟨front, f, back, rfl, first, enough⟩ := exists_first_fit noFit
    obtain ⟨h', l', done, takes⟩ := ready.takes enough (ready.wf.findHeader_first fits first enough)
    exact .inr ⟨_, h', l', done, takes⟩

/-- The block behind `b` is free, and the other blocks are as they were. -/
structure Releases (h h' : Heap) (l l' : List Region) (b : Nat) : Prop where
  ready : h'.Ready l'
  heap : h'.heap = h.heap
  least : h'.minSize = h.minSize
  inUse : ∀ c q, h'.InUse l' c q ↔ h.InUse l c q ∧ c ≠ b
  kept : ∀ c q, h.InUse l c q → c ≠ b → ∀ i, c + headerSize ≤ i → i < c + headerSize + q.size → h'.memory i = h.memory i

theorem Ready.kfree (ready : h.Ready l) (inUse : h.InUse l b r) (keeps : h.KeepsPages (b + headerSize)) :
    ∃ h' ps l', h.kfree (b + headerSize) = some (h', ps) ∧ h.Releases h' l l' b := by
  obtain ⟨member, used⟩ := inUse
  obtain ⟨front, back, rfl, rfl⟩ := exists_split_of_mem member
  obtain ⟨x, u⟩ := r
  cases used
  obtain ⟨m₁, done, wf₁, kept₁⟩ := ready.wf.heapFree
  have spare : (h.withMemory m₁).Spare (Hole.mk front x back).joined := keeps front x back ready.wf rfl
  obtain ⟨m₂, ps, e, l', shrunk, wf₂, floor, kept₂, -, same, statuses, shorter, pages⟩ :=
    spare.settled_prefix wf₁ ready.pages ready.minimal
  have apart := Hole.noAdjacentFree_joined ready.apart
  have inside := ready.inside
  refine ⟨_, ps, l', done.trans shrunk, ⟨wf₂, ?_, ready.start, pages, floor, shorter.trans inside, ready.address⟩, rfl,
    rfl, fun c q => ?_, fun c q inUse other i low high => ?_⟩
  · have prefix_ := List.IsChain.prefix ((List.isChain_map Region.used (R := fun p q => p = true ∨ q = true)).mpr apart) statuses
    exact (List.isChain_map Region.used).mp prefix_
  · simp only [InUse, and_right_comm (b := q.used = true), and_congr_left_iff]
    intro used
    exact (same c q used).symm.trans (used_joined_iff used)
  · obtain ⟨there, used⟩ := inUse
    rw [headerSize] at low high
    have first : m₁ i = h.memory i := payload_of_keeps kept₁ there low high
    rw [← first]
    exact payload_of_keeps kept₂ ((used_joined_iff used).mpr ⟨there, other⟩) low high

theorem Ready.write {addr : Nat} {v : UInt8} (ready : h.Ready l) (inUse : h.InUse l c q) (low : c + headerSize ≤ addr)
    (high : addr < c + headerSize + q.size) : (h.withMemory (Function.update h.memory addr v)).Ready l := by
  have outside := not_headers_iff.mp (inUse.notHeaders low high)
  refine ⟨⟨ready.wf.tiles.of_headers fun q member i above below => ?_, ready.wf.ends, ready.wf.small, ready.wf.mapped⟩,
    ready.apart, ready.start, ready.pages, ready.minimal, ready.inside, ready.address⟩
  have := outside q member
  exact Function.update_of_ne (by omega) ..

theorem heapNew_minSize {start maxSize : Nat} {frames : Frames} (made : heapNew start size maxSize frames = some h) :
    h.minSize = size := by
  simp only [heapNew, setHeader, setMagic, setSize, Heap.setPrev, Option.bind_eq_bind, Option.bind_eq_some_iff] at made
  obtain ⟨h₁, first, h₂, second, third⟩ := made
  rw [store_withMemory third, store_withMemory second, store_withMemory first]
  rfl

theorem heapNew_ready {start maxSize : Nat} {frames : Frames} (made : heapNew start size maxSize frames = some h)
    (aligned : start % pageSize = 0) (pages : size % pageSize = 0) (positive : 0 < size)
    (all : ∀ i < size / pageSize, frames.mapped i = true) (limit : size ≤ maxSize) (address : start + maxSize < 2 ^ 32) :
    h.Ready [⟨size - 26, false⟩] := by
  have page : pageSize = 4096 := rfl
  have header : headerSize = 12 := rfl
  have large : 4096 ≤ size := by
    rw [page] at pages
    omega
  have count : (size + (pageSize - 1)) / pageSize = size / pageSize := by
    rw [page] at pages ⊢
    omega
  generalize fresh : (⟨start, u32 (start + size), u32 (start + maxSize), size, frames.memory,
    fun a => !frames.covers start ((size + (pageSize - 1)) / pageSize) a⟩ : Heap) = h₀
  have first : h₀.firstHeader = start + 14 := by subst fresh; rfl
  have ends : h₀.end_ = start + size := by
    subst fresh
    exact u32_of_lt (by omega)
  have mapped : h₀.Mapped := by
    intro a low high
    have covered : frames.covers start (size / pageSize) a = true := by
      refine (covers_aligned aligned all).mpr ⟨by omega, ?_⟩
      rw [page] at pages ⊢
      omega
    subst fresh
    simp only [count, covered, Bool.not_true]
  have free : u32Sub (u32Sub h₀.end_ h₀.firstHeader) headerSize = size - 26 := by
    have inner : u32Sub (start + size) (start + 14) = size - 14 := by
      rw [u32Sub_of_le (by omega) (by omega)]
      omega
    rw [ends, first, inner, u32Sub_of_le (by omega) (by omega), header, Nat.sub_sub]
  have made' : h₀.setHeader h₀.firstHeader heapFreeMagic (size - 26) 0 = some h := by
    rw [← free]
    subst fresh
    exact made
  obtain ⟨m', stored, magic, sizes, prev, -⟩ := setHeader_spec (h := h₀) (x := h₀.firstHeader) (w := heapFreeMagic)
    (n := size - 26) (p := 0) mapped le_rfl (by omega) (by decide) (by omega) (by decide)
  rw [stored] at made'
  cases made'
  refine ⟨⟨⟨magic, sizes, prev, trivial⟩, ?_, ?_, mapped⟩, List.isChain_singleton _, ?_, ?_, ?_, ?_, ?_⟩
  · rw [withMemory_firstHeader, withMemory_end, first, ends, endOf_cons, endOf_nil]
    dsimp only
    omega
  · rw [withMemory_end, ends]
    omega
  all_goals subst fresh
  · exact aligned
  · rw [withMemory_end, ends]
    rw [page] at aligned pages ⊢
    omega
  · rw [withMemory_end, ends]
    exact (Nat.add_sub_cancel_left start size).ge
  · rw [withMemory_end, ends]
    exact (Nat.add_le_add_left limit start).trans (u32_of_lt address).ge
  · exact Nat.mod_lt _ (by decide)

end Heap

/-! ## Runs -/

/-- A block in use, with the bytes that it was handed out with or that were written since. -/
structure Block where
  addr : Nat
  size : Nat
  bytes : Nat → UInt8

def Block.write (b : Block) (addr : Nat) (v : UInt8) : Block :=
  if b.addr ≤ addr ∧ addr < b.addr + b.size then { b with bytes := Function.update b.bytes (addr - b.addr) v } else b

def Block.Apart (b b' : Block) : Prop := b.addr + b.size ≤ b'.addr ∨ b'.addr + b'.size ≤ b.addr

structure Arena where
  heap : Heap
  blocks : List Block

inductive Request
  | kmalloc (size : Nat) (pages : Pages)
  | kfree (addr : Nat)
  -- by the owner of a block
  | write (addr : Nat) (v : UInt8)

namespace Arena

def step (s : Arena) : Request → Option Arena
  | .kmalloc size pages => (s.heap.kmalloc size pages).map fun answer => match answer with
      | (none, heap) => { s with heap := heap }
      | (some addr, heap) => ⟨heap, ⟨addr, size, fun i => heap.memory (addr + i)⟩ :: s.blocks⟩
  | .kfree addr => (s.heap.kfree addr).map fun answer => ⟨answer.1, s.blocks.filter fun b => b.addr ≠ addr⟩
  | .write addr v => some ⟨s.heap.withMemory (Function.update s.heap.memory addr v), s.blocks.map fun b => b.write addr v⟩

def Legal (s : Arena) : Request → Prop
  | .kmalloc size pages => size + headerSize < 2 ^ 32 ∧ s.heap.GrowsWell size pages
  | .kfree addr => (∃ b ∈ s.blocks, b.addr = addr) ∧ s.heap.KeepsPages addr
  | .write addr _ => ∃ b ∈ s.blocks, b.addr ≤ addr ∧ addr < b.addr + b.size

def machine : Machine Arena Request := ⟨Legal, step⟩

/-- The blocks are the regions in use, and hold their bytes. -/
structure Sound (s : Arena) (l : List Region) : Prop where
  ready : s.heap.Ready l
  owned : ∀ b ∈ s.blocks, ∃ c q, s.heap.InUse l c q ∧ b.addr = c + headerSize ∧ b.size ≤ q.size
  known : ∀ c q, s.heap.InUse l c q → ∃ b ∈ s.blocks, b.addr = c + headerSize
  nodup : (s.blocks.map Block.addr).Nodup
  kept : ∀ b ∈ s.blocks, ∀ i < b.size, s.heap.memory (b.addr + i) = b.bytes i

variable {s s' : Arena} {addr : Nat} {v : UInt8}

theorem Sound.takes (sound : s.Sound l) (takes : s.heap.Takes h' l l' b size) :
    Sound ⟨h', ⟨b + headerSize, size, fun i => h'.memory (b + headerSize + i)⟩ :: s.blocks⟩ l' := by
  obtain ⟨r, used, enough, inUse⟩ := takes.block
  refine ⟨takes.ready, List.forall_mem_cons.mpr ⟨⟨b, r, (inUse b r).mpr (.inr ⟨rfl, rfl⟩), rfl, enough⟩, fun block member => ?_⟩,
    fun c q there => ?_, List.nodup_cons.mpr ⟨fun again => ?_, sound.nodup⟩,
    List.forall_mem_cons.mpr ⟨fun _ _ => rfl, fun block member i inside => ?_⟩⟩
  · obtain ⟨c, q, there, place, room⟩ := sound.owned block member
    exact ⟨c, q, (inUse c q).mpr (.inl there), place, room⟩
  · rcases (inUse c q).mp there with old | ⟨rfl, rfl⟩
    · obtain ⟨block, member, place⟩ := sound.known c q old
      exact ⟨block, List.mem_cons_of_mem _ member, place⟩
    · exact ⟨_, List.mem_cons_self, rfl⟩
  · obtain ⟨block, member, same⟩ := List.mem_map.mp again
    obtain ⟨c, q, there, place, -⟩ := sound.owned block member
    have here : c = b := Nat.add_right_cancel (place.symm.trans same)
    rw [here] at there
    exact takes.fresh q there
  · obtain ⟨c, q, there, place, room⟩ := sound.owned block member
    have bounds := layout_bounds there.1
    rw [sound.ready.wf.ends] at bounds
    have header : headerSize = 12 := rfl
    rw [← sound.kept block member i inside]
    refine takes.kept _ (by omega) (by omega) ?_
    exact ((inUse c q).mpr (.inl there)).notHeaders (by omega) (by omega)

theorem Sound.releases (sound : s.Sound l) (releases : s.heap.Releases h' l l' b) :
    Sound ⟨h', s.blocks.filter fun block => block.addr ≠ b + headerSize⟩ l' := by
  refine ⟨releases.ready, fun block member => ?_, fun c q there => ?_, ?_, fun block member i inside => ?_⟩
  · obtain ⟨member, other⟩ := List.mem_filter.mp member
    obtain ⟨c, q, there, place, room⟩ := sound.owned block member
    refine ⟨c, q, (releases.inUse c q).mpr ⟨there, ?_⟩, place, room⟩
    rintro rfl
    exact of_decide_eq_true other place
  · obtain ⟨there, other⟩ := (releases.inUse c q).mp there
    obtain ⟨block, member, place⟩ := sound.known c q there
    refine ⟨block, List.mem_filter.mpr ⟨member, decide_eq_true fun same => other ?_⟩, place⟩
    exact Nat.add_right_cancel (place.symm.trans same)
  · exact sound.nodup.sublist (List.filter_sublist.map _)
  · obtain ⟨member, other⟩ := List.mem_filter.mp member
    obtain ⟨c, q, there, place, room⟩ := sound.owned block member
    rw [← sound.kept block member i inside]
    refine releases.kept c q there ?_ _ (by omega) (by omega)
    rintro rfl
    exact of_decide_eq_true other place

theorem Sound.writes (sound : s.Sound l) (legal : ∃ block ∈ s.blocks, block.addr ≤ addr ∧ addr < block.addr + block.size) :
    Sound ⟨s.heap.withMemory (Function.update s.heap.memory addr v), s.blocks.map fun block => block.write addr v⟩ l := by
  have addrs (block : Block) : (block.write addr v).addr = block.addr ∧ (block.write addr v).size = block.size := by
    rw [Block.write]
    split_ifs <;> exact ⟨rfl, rfl⟩
  obtain ⟨block, member, low, high⟩ := legal
  obtain ⟨c, q, there, place, room⟩ := sound.owned block member
  refine ⟨sound.ready.write there (by omega) (by omega), List.forall_mem_map.mpr fun block member => ?_, fun c q there => ?_, ?_,
    List.forall_mem_map.mpr fun block member i inside => ?_⟩
  · obtain ⟨c, q, there, place, room⟩ := sound.owned block member
    exact ⟨c, q, there, (addrs block).1.trans place, (addrs block).2.le.trans room⟩
  · obtain ⟨block, member, place⟩ := sound.known c q there
    exact ⟨_, List.mem_map_of_mem member, (addrs block).1.trans place⟩
  · rw [List.map_map]
    exact (List.map_congr_left fun block _ => (addrs block).1 : s.blocks.map _ = _) ▸ sound.nodup
  · rw [(addrs block).2] at inside
    have old := sound.kept block member i inside
    rw [(addrs block).1, Heap.withMemory_memory, Function.update_apply, old, Block.write]
    split_ifs with here reached reached
    · dsimp only
      rw [← here, Nat.add_sub_cancel_left, Function.update_self]
    · omega
    · dsimp only
      rw [Function.update_of_ne (by omega)]
    · rfl

theorem Sound.step {r : Request} (sound : s.Sound l) (legal : s.Legal r) :
    ∃ s' l', s.step r = some s' ∧ s'.Sound l' ∧ s'.heap.minSize = s.heap.minSize := by
  cases r with
  | kmalloc size pages =>
      rcases sound.ready.kmalloc legal.1 legal.2 with ⟨refused, -⟩ | ⟨b, h', l', done, takes⟩
      · exact ⟨s, l, by rw [Arena.step, refused]; rfl, sound, rfl⟩
      · exact ⟨_, l', by rw [Arena.step, done]; rfl, sound.takes takes, takes.least⟩
  | kfree addr =>
      obtain ⟨⟨block, member, rfl⟩, keeps⟩ := legal
      obtain ⟨c, q, there, place, -⟩ := sound.owned block member
      rw [place] at keeps
      obtain ⟨h', ps, l', done, releases⟩ := sound.ready.kfree there keeps
      exact ⟨_, l', by rw [Arena.step, place, done]; rfl, sound.releases releases, releases.least⟩
  | write addr v => exact ⟨_, l, rfl, sound.writes legal, rfl⟩

/-- Blocks that are not freed keep apart, lie in the heap and hold what was written to them. -/
structure Safe (s : Arena) : Prop where
  apart : s.blocks.Pairwise Block.Apart
  inside : ∀ b ∈ s.blocks, s.heap.firstHeader + headerSize ≤ b.addr ∧ b.addr + b.size ≤ s.heap.end_
  kept : ∀ b ∈ s.blocks, ∀ i < b.size, s.heap.memory (b.addr + i) = b.bytes i

theorem Sound.safe (sound : s.Sound l) : s.Safe := by
  refine ⟨(List.pairwise_map.mp sound.nodup).imp_of_mem fun {b b'} member member' other => ?_, fun b member => ?_, sound.kept⟩
  · obtain ⟨c, q, there, place, room⟩ := sound.owned b member
    obtain ⟨c', q', there', place', room'⟩ := sound.owned b' member'
    rw [headerSize] at place place'
    rcases layout_apart there.1 there'.1 with ⟨same, -⟩ | before | after
    · exact absurd (by omega) other
    · exact .inl (by omega)
    · exact .inr (by omega)
  · obtain ⟨c, q, there, place, room⟩ := sound.owned b member
    have bounds := layout_bounds there.1
    rw [sound.ready.wf.ends] at bounds
    rw [headerSize] at place ⊢
    omega

theorem eq_singleton_of_free (apart : NoAdjacentFree l) (nonempty : l ≠ []) (free : ∀ r ∈ l, r.used = false) :
    ∃ n, l = [⟨n, false⟩] := by
  match l with
  | [⟨n, u⟩] =>
      cases free ⟨n, u⟩ List.mem_cons_self
      exact ⟨n, rfl⟩
  | p :: q :: l =>
      have one := (List.isChain_cons_cons.mp apart).1
      rw [free p (by simp), free q (by simp)] at one
      simp at one

theorem Sound.whole (sound : s.Sound l) (none : s.blocks = []) :
    l = [⟨s.heap.end_ - s.heap.firstHeader - headerSize, false⟩] := by
  have free : ∀ r ∈ l, r.used = false := fun r member => by
    obtain ⟨c, there⟩ := Heap.exists_mem_layout s.heap.firstHeader member
    by_contra used
    obtain ⟨b, isBlock, -⟩ := sound.known c r ⟨there, Bool.not_eq_false _ ▸ used⟩
    rw [none] at isBlock
    cases isBlock
  obtain ⟨n, rfl⟩ := eq_singleton_of_free sound.ready.apart sound.ready.nonempty free
  have ends := sound.ready.wf.ends
  simp only [endOf_cons, endOf_nil] at ends
  rw [headerSize]
  have same : n = s.heap.end_ - s.heap.firstHeader - 12 := by omega
  rw [same]

theorem sound_of_reaches {start maxSize : Nat} {frames : Frames} (made : Heap.heapNew start size maxSize frames = some h)
    (aligned : start % pageSize = 0) (pages : size % pageSize = 0) (positive : 0 < size)
    (all : ∀ i < size / pageSize, frames.mapped i = true) (limit : size ≤ maxSize) (address : start + maxSize < 2 ^ 32)
    (run : machine.Reaches ⟨h, []⟩ s) : ∃ l, s.Sound l ∧ s.heap.minSize = h.minSize := by
  refine run.invariant (I := fun s => ∃ l, s.Sound l ∧ s.heap.minSize = h.minSize) ?_ ?_
  · rintro s r t ⟨l, sound, least⟩ legal step
    obtain ⟨s', l', done, sound', same⟩ := sound.step legal
    have here : t = s' := Option.some.inj (step.symm.trans done)
    rw [here]
    exact ⟨l', sound', same.trans least⟩
  · refine ⟨_, ⟨Heap.heapNew_ready made aligned pages positive all limit address, List.forall_mem_nil _, ?_, List.nodup_nil,
      List.forall_mem_nil _⟩, rfl⟩
    rintro c q ⟨member, used⟩
    cases List.mem_singleton.mp member
    cases used

/-- In every run of allocations, releases and writes the blocks stay apart and keep their bytes, and no call faults. When the last
block is released, the heap is one free region again. -/
theorem heap_runs {start maxSize : Nat} {frames : Frames} (made : Heap.heapNew start size maxSize frames = some h)
    (aligned : start % pageSize = 0) (pages : size % pageSize = 0) (positive : 0 < size)
    (all : ∀ i < size / pageSize, frames.mapped i = true) (limit : size ≤ maxSize) (address : start + maxSize < 2 ^ 32)
    (run : machine.Reaches ⟨h, []⟩ s) :
    s.Safe ∧ (∀ r, s.Legal r → ∃ s', s.step r = some s') ∧
      (s.blocks = [] → s.heap.WellFormed [⟨s.heap.end_ - s.heap.firstHeader - headerSize, false⟩] ∧
        size ≤ s.heap.end_ - s.heap.heap) := by
  obtain ⟨l, sound, least⟩ := sound_of_reaches made aligned pages positive all limit address run
  refine ⟨sound.safe, fun r legal => ?_, fun none => ⟨sound.whole none ▸ sound.ready.wf, ?_⟩⟩
  · obtain ⟨s', -, done, -⟩ := sound.step legal
    exact ⟨s', done⟩
  · have floor := sound.ready.minimal
    rwa [least, Heap.heapNew_minSize made] at floor

-- a heap of one page, and one block of 100 bytes
theorem heap_runs_one_block : ∃ (h : Heap) (s : Arena) (b : Block), Heap.heapNew 8192 4096 65536 (Heap.newPages 1) = some h ∧
    s.blocks = [b] ∧ b.size = 100 ∧ s.Safe ∧ (∀ r, s.Legal r → ∃ s', s.step r = some s') ∧
    (s.blocks = [] → s.heap.WellFormed [⟨s.heap.end_ - s.heap.firstHeader - headerSize, false⟩] ∧
      4096 ≤ s.heap.end_ - s.heap.heap) := by
  obtain ⟨h, made⟩ := Option.isSome_iff_exists.mp (show (Heap.heapNew 8192 4096 65536 (Heap.newPages 1)).isSome = true by decide)
  have ready := Heap.heapNew_ready made (by decide) (by decide) (by decide) (by decide) (by decide) (by decide)
  have fit : ¬ Heap.NoFit [⟨4096 - 26, false⟩] 100 := fun noFit =>
    absurd (noFit ⟨4096 - 26, false⟩ List.mem_cons_self rfl) (by decide)
  have legal : Legal ⟨h, []⟩ (.kmalloc 100 none) := by
    refine ⟨by decide, fun l wf noFit => absurd noFit ?_⟩
    rw [wf.tiles.unique ready.wf.tiles (wf.ends.trans ready.wf.ends.symm)]
    exact fit
  obtain ⟨-, noFit⟩ | ⟨b, h', l', done, -⟩ := ready.kmalloc legal.1 legal.2
  · exact absurd noFit fit
  · have step : Arena.step ⟨h, []⟩ (.kmalloc 100 none) =
        some ⟨h', [⟨b + headerSize, 100, fun i => h'.memory (b + headerSize + i)⟩]⟩ := by
      rw [Arena.step, done]
      rfl
    refine ⟨h, _, _, made, rfl, ?_, heap_runs made (by decide) (by decide) (by decide) (by decide) (by decide) (by decide)
      (.snoc (M := machine) (i := .kmalloc 100 none) (.refl _) legal step)⟩
    rfl

end Arena
end Kerosene.Mem
