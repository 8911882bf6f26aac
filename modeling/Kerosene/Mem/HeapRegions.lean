import Kerosene.Mem.Heap

/-!
# The regions of a heap

The headers tile the heap: each region starts where the one before it ends, and names its header in `prev`.
-/

namespace Kerosene.Mem
open Lib

variable {m m' : Bytes} {a b prev v : Nat} {h h' : Heap}

theorem u32_of_lt {n : Nat} (small : n < 2 ^ 32) : u32 n = n := Nat.mod_eq_of_lt small

theorem u32Sub_of_le (small : a < 2 ^ 32) (le : b ≤ a) : u32Sub a b = a - b := by
  rw [u32Sub]
  omega

theorem u32Sub_of_lt (small : b ≤ 2 ^ 32) (lt : a < b) : u32Sub a b = a + 2 ^ 32 - b := by
  rw [u32Sub]
  omega

structure Region where
  size : Nat
  used : Bool
  deriving DecidableEq

namespace Region

def magic (r : Region) : Nat := if r.used then heapUsedMagic else heapFreeMagic

theorem magic_lt (r : Region) : r.magic < 2 ^ 32 := by
  rw [magic]
  split_ifs <;> decide

theorem magic_free (s : Nat) : magic ⟨s, false⟩ = heapFreeMagic := rfl

theorem magic_eq_free {r : Region} : r.magic = heapFreeMagic ↔ r.used = false := by
  cases used : r.used <;> simp [magic, used, heapUsedMagic, heapFreeMagic]

theorem magic_eq_used {r : Region} : r.magic = heapUsedMagic ↔ r.used = true := by
  cases used : r.used <;> simp [magic, used, heapUsedMagic, heapFreeMagic]

end Region

/-! ## Regions in a row -/

variable {l front back : List Region} {r : Region}

-- where the regions end, when the first of them is at `a`
def endOf (a : Nat) : List Region → Nat
  | [] => a
  | r :: l => endOf (a + 12 + r.size) l

-- the last header, or `prev`
def lastOf (a prev : Nat) : List Region → Nat
  | [] => prev
  | r :: l => lastOf (a + 12 + r.size) a l

def layout (a : Nat) : List Region → List (Nat × Region)
  | [] => []
  | r :: l => (a, r) :: layout (a + 12 + r.size) l

@[simp] theorem endOf_nil : endOf a [] = a := rfl

@[simp] theorem endOf_cons : endOf a (r :: l) = endOf (a + 12 + r.size) l := rfl

@[simp] theorem lastOf_nil : lastOf a prev [] = prev := rfl

@[simp] theorem lastOf_cons : lastOf a prev (r :: l) = lastOf (a + 12 + r.size) a l := rfl

@[simp] theorem layout_nil : layout a [] = [] := rfl

@[simp] theorem layout_cons : layout a (r :: l) = (a, r) :: layout (a + 12 + r.size) l := rfl

@[simp] theorem endOf_append : endOf a (front ++ back) = endOf (endOf a front) back := by
  induction front generalizing a with
  | nil => rfl
  | cons r front ih => exact ih

@[simp] theorem lastOf_append : lastOf a prev (front ++ back) = lastOf (endOf a front) (lastOf a prev front) back := by
  induction front generalizing a prev with
  | nil => rfl
  | cons r front ih => exact ih

@[simp] theorem layout_append : layout a (front ++ back) = layout a front ++ layout (endOf a front) back := by
  induction front generalizing a with
  | nil => rfl
  | cons r front ih => rw [List.cons_append, layout_cons, layout_cons, ih]; rfl

theorem add_le_endOf (a : Nat) (l : List Region) : a + 12 * l.length ≤ endOf a l := by
  induction l generalizing a with
  | nil => simp
  | cons r l ih =>
      have := ih (a + 12 + r.size)
      rw [List.length_cons, endOf_cons]
      omega

theorem le_endOf (a : Nat) (l : List Region) : a ≤ endOf a l := by
  have := add_le_endOf a l
  omega

theorem layout_bounds (member : (b, r) ∈ layout a l) : a ≤ b ∧ b + 12 + r.size ≤ endOf a l := by
  induction l generalizing a with
  | nil => cases member
  | cons q l ih =>
      rcases List.mem_cons.mp member with same | inside
      · cases same
        exact ⟨le_rfl, le_endOf _ l⟩
      · have := ih inside
        rw [endOf_cons]
        omega

theorem layout_apart {q : Region} {c : Nat} (member : (b, r) ∈ layout a l) (other : (c, q) ∈ layout a l) :
    b = c ∧ r = q ∨ b + 12 + r.size ≤ c ∨ c + 12 + q.size ≤ b := by
  induction l generalizing a with
  | nil => cases member
  | cons p l ih =>
      rcases List.mem_cons.mp member with same | inside <;> rcases List.mem_cons.mp other with same' | inside'
      · cases same
        cases same'
        exact .inl ⟨rfl, rfl⟩
      · cases same
        exact .inr (.inl (layout_bounds inside').1)
      · cases same'
        exact .inr (.inr (layout_bounds inside).1)
      · exact ih inside inside'

theorem exists_split_of_mem (member : (b, r) ∈ layout a l) : ∃ front back, l = front ++ r :: back ∧ endOf a front = b := by
  induction l generalizing a with
  | nil => cases member
  | cons q l ih =>
      rcases List.mem_cons.mp member with same | inside
      · cases same
        exact ⟨[], l, rfl, rfl⟩
      · obtain ⟨front, back, rfl, here⟩ := ih inside
        exact ⟨q :: front, back, rfl, here⟩

/-! ## Headers in memory -/

def Tiles (m : Bytes) (a prev : Nat) : List Region → Prop
  | [] => True
  | r :: l => m.word a = r.magic ∧ m.word (a + 4) = r.size ∧ m.word (a + 8) = prev ∧ Tiles m (a + 12 + r.size) a l

@[simp] theorem tiles_nil : Tiles m a prev [] := trivial

@[simp] theorem tiles_cons : Tiles m a prev (r :: l) ↔
    m.word a = r.magic ∧ m.word (a + 4) = r.size ∧ m.word (a + 8) = prev ∧ Tiles m (a + 12 + r.size) a l := Iff.rfl

@[simp] theorem tiles_append : Tiles m a prev (front ++ back) ↔
    Tiles m a prev front ∧ Tiles m (endOf a front) (lastOf a prev front) back := by
  induction front generalizing a prev with
  | nil => simp
  | cons r front ih => simp only [List.cons_append, tiles_cons, ih, endOf_cons, lastOf_cons, and_assoc]

theorem Tiles.congr (tiles : Tiles m a prev l) (same : ∀ i, a ≤ i → i < endOf a l → m' i = m i) : Tiles m' a prev l := by
  induction l generalizing a prev with
  | nil => trivial
  | cons r l ih =>
      obtain ⟨magic, size, back, rest⟩ := tiles
      have := le_endOf (a + 12 + r.size) l
      rw [endOf_cons] at same
      refine ⟨?_, ?_, ?_, ih rest fun i low high => same i (by omega) high⟩
      · rw [Bytes.word_congr fun i low high => same i (by omega) (by omega), magic]
      · rw [Bytes.word_congr fun i low high => same i (by omega) (by omega), size]
      · rw [Bytes.word_congr fun i low high => same i (by omega) (by omega), back]

theorem Tiles.setPrev {old : Nat} (tiles : Tiles m a old (r :: l)) (small : v < 2 ^ 32) :
    Tiles (m.setWord (a + 8) v) a v (r :: l) := by
  obtain ⟨magic, size, -, rest⟩ := tiles
  refine ⟨?_, ?_, Bytes.word_setWord small, rest.congr fun i low _ => Bytes.setWord_of_outside (by omega)⟩
  · rw [Bytes.word_setWord_of_outside (by omega), magic]
  · rw [Bytes.word_setWord_of_outside (by omega), size]

namespace Heap

-- every page is there
def Mapped (h : Heap) : Prop := ∀ a, h.firstHeader ≤ a → a < h.end_ → h.unmapped a = false

/-- The regions of the heap are `l`. -/
structure WellFormed (h : Heap) (l : List Region) : Prop where
  tiles : Tiles h.memory h.firstHeader 0 l
  ends : endOf h.firstHeader l = h.end_
  small : h.end_ < 2 ^ 32
  mapped : h.Mapped

def withMemory (h : Heap) (m : Bytes) : Heap := { h with memory := m }

@[simp] theorem withMemory_memory : (h.withMemory m).memory = m := rfl

@[simp] theorem withMemory_end : (h.withMemory m).end_ = h.end_ := rfl

@[simp] theorem withMemory_firstHeader : (h.withMemory m).firstHeader = h.firstHeader := rfl

@[simp] theorem withMemory_withMemory : (h.withMemory m).withMemory m' = h.withMemory m' := rfl

theorem Mapped.withMemory (mapped : h.Mapped) : (h.withMemory m).Mapped := mapped

theorem Mapped.accessible (mapped : h.Mapped) (low : h.firstHeader ≤ a) (high : a + 4 ≤ h.end_) : h.Accessible a :=
  ⟨low, high, fun i inside => mapped (a + i) (by omega) (by omega)⟩

theorem load_eq (mapped : h.Mapped) (low : h.firstHeader ≤ a) (high : a + 4 ≤ h.end_) : h.load a = some (h.memory.word a) :=
  if_pos (mapped.accessible low high)

theorem store_eq (mapped : h.Mapped) (low : h.firstHeader ≤ a) (high : a + 4 ≤ h.end_) :
    h.store a v = some (h.withMemory (h.memory.setWord a v)) :=
  if_pos (mapped.accessible low high)

theorem store_none (high : h.end_ < a + 4) : h.store a v = none := if_neg fun inside => by
  have := inside.2.1
  omega

/-- A header lies in the heap and reads as the region `r` behind `prev`. -/
structure HeaderAt (h : Heap) (b : Nat) (r : Region) (prev : Nat) : Prop where
  magic : h.magic b = some r.magic
  size : h.size b = some r.size
  prev : h.prev b = some prev
  next : h.nextHeader b = some (b + 12 + r.size)

theorem headerAt_of_tiles {l : List Region} (mapped : h.Mapped) (low : h.firstHeader ≤ b) (tiles : Tiles h.memory b prev (r :: l))
    (ends : endOf b (r :: l) ≤ h.end_) (small : h.end_ < 2 ^ 32) : h.HeaderAt b r prev := by
  obtain ⟨magic, size, back_, -⟩ := tiles
  have := le_endOf (b + 12 + r.size) l
  rw [endOf_cons] at ends
  have sizes : h.size b = some r.size := by rw [Heap.size, load_eq mapped (by omega) (by omega), size]
  refine ⟨?_, sizes, ?_, ?_⟩
  · rw [Heap.magic, load_eq mapped (by omega) (by omega), magic]
  · rw [Heap.prev, load_eq mapped (by omega) (by omega), back_]
  · rw [nextHeader, sizes]
    simp only [Option.bind_eq_bind, Option.bind_some, headerSize]
    rw [u32_of_lt (by omega)]
    rfl

theorem WellFormed.headerAt (wf : h.WellFormed (front ++ r :: back)) :
    h.HeaderAt (endOf h.firstHeader front) r (lastOf h.firstHeader 0 front) := by
  have ends := wf.ends
  rw [endOf_append] at ends
  exact headerAt_of_tiles wf.mapped (le_endOf _ _) (tiles_append.mp wf.tiles).2 ends.le wf.small

theorem setHeader_spec {x w n p : Nat} (mapped : h.Mapped) (low : h.firstHeader ≤ x) (high : x + 12 ≤ h.end_) (magicSmall : w < 2 ^ 32)
    (sizeSmall : n < 2 ^ 32) (prevSmall : p < 2 ^ 32) :
    ∃ m, h.setHeader x w n p = some (h.withMemory m) ∧ m.word x = w ∧ m.word (x + 4) = n ∧
      m.word (x + 8) = p ∧ ∀ i, i < x ∨ x + 12 ≤ i → m i = h.memory i := by
  refine ⟨((h.memory.setWord x w).setWord (x + 4) n).setWord (x + 8) p, ?_, ?_, ?_, Bytes.word_setWord prevSmall, ?_⟩
  · rw [setHeader, setMagic, store_eq mapped low (by omega), Option.bind_eq_bind, Option.bind_some, setSize,
      store_eq mapped.withMemory (by rw [withMemory_firstHeader]; omega) (by rw [withMemory_end]; omega), Option.bind_some,
      Heap.setPrev, store_eq mapped.withMemory.withMemory (by simp only [withMemory_firstHeader]; omega)
        (by simp only [withMemory_end]; omega)]
    rfl
  · rw [Bytes.word_setWord_of_outside (by omega), Bytes.word_setWord_of_outside (by omega), Bytes.word_setWord magicSmall]
  · rw [Bytes.word_setWord_of_outside (by omega), Bytes.word_setWord sizeSmall]
  · intro i outside
    rw [Bytes.setWord_of_outside (by omega), Bytes.setWord_of_outside (by omega), Bytes.setWord_of_outside (by omega)]

-- a header that ends behind the heap
theorem setHeader_none {x magic size prev : Nat} (high : h.end_ < x + 12) : h.setHeader x magic size prev = none := by
  simp only [setHeader, setMagic, setSize, Heap.setPrev, Option.bind_eq_bind, Option.bind_eq_none_iff]
  intro h₁ stored₁ h₂ stored₂
  have same : ∀ {h h' : Heap} {a v : Nat}, h.store a v = some h' → h'.end_ = h.end_ := by
    intro h h' a v stored
    rw [store] at stored
    split_ifs at stored
    cases stored
    rfl
  refine store_none ?_
  rw [same stored₂, same stored₁]
  omega

theorem WellFormed.bounds (wf : h.WellFormed (front ++ r :: back)) :
    h.firstHeader ≤ endOf h.firstHeader front ∧ endOf h.firstHeader front + 12 + r.size ≤ h.end_ := by
  have ends := wf.ends
  rw [endOf_append, endOf_cons] at ends
  exact ⟨le_endOf _ _, by rw [← ends]; exact le_endOf _ _⟩

theorem WellFormed.setMagic {u : Bool} (wf : h.WellFormed (front ++ r :: back)) :
    ∃ m, h.setMagic (endOf h.firstHeader front) (Region.magic ⟨r.size, u⟩) = some (h.withMemory m) ∧
      (h.withMemory m).WellFormed (front ++ ⟨r.size, u⟩ :: back) ∧
      ∀ i, i < endOf h.firstHeader front ∨ endOf h.firstHeader front + 12 ≤ i → m i = h.memory i := by
  obtain ⟨low, high⟩ := wf.bounds
  obtain ⟨before, magic, size, prev, after⟩ := tiles_append.mp wf.tiles
  refine ⟨_, store_eq wf.mapped low (by omega),
    ⟨tiles_append.mpr ⟨?_, Bytes.word_setWord (Region.magic_lt _), ?_, ?_, ?_⟩, ?_, wf.small, wf.mapped⟩,
    fun i outside => Bytes.setWord_of_outside (by omega)⟩
  · exact before.congr fun i _ below => Bytes.setWord_of_outside (.inl below)
  · rw [withMemory_memory, withMemory_firstHeader, Bytes.word_setWord_of_outside (by omega), size]
  · rw [withMemory_memory, withMemory_firstHeader, Bytes.word_setWord_of_outside (by omega), prev]
  · exact after.congr fun i above _ => Bytes.setWord_of_outside (.inr (by omega))
  · have ends := wf.ends
    rwa [endOf_append, endOf_cons] at ends ⊢

theorem linkNext_spec (mapped : h.Mapped) (low : h.firstHeader ≤ b) (header : h.HeaderAt b r prev) (small : h.end_ < 2 ^ 32)
    (tiles : Tiles h.memory (b + 12 + r.size) v back) (ends : endOf (b + 12 + r.size) back = h.end_) :
    ∃ m, h.linkNext b = some (h.withMemory m) ∧ Tiles m (b + 12 + r.size) b back ∧
      ∀ i, i < b + 12 + r.size ∨ (∀ q ∈ layout (b + 12 + r.size) back, i < q.1 ∨ q.1 + 12 ≤ i) → m i = h.memory i := by
  rw [linkNext, header.next, Option.bind_eq_bind, Option.bind_some]
  cases back with
  | nil =>
      rw [endOf_nil] at ends
      exact ⟨h.memory, by rw [if_neg (by omega)]; rfl, trivial, fun _ _ => rfl⟩
  | cons q back =>
      have := le_endOf (b + 12 + r.size + 12 + q.size) back
      rw [endOf_cons] at ends
      refine ⟨_, by rw [if_pos (by omega), Heap.setPrev, store_eq mapped (by omega) (by omega)], tiles.setPrev (by omega), ?_⟩
      rintro i (before | outside)
      · exact Bytes.setWord_of_outside (by omega)
      · have := outside _ List.mem_cons_self
        exact Bytes.setWord_of_outside (by omega)

end Heap
end Kerosene.Mem
