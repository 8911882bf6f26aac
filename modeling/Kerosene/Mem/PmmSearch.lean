import Kerosene.Mem.Pmm

namespace Kerosene.Mem.Pmm

theorem testBit_eq (p : Pmm) (b : Nat) : p.testBit b = (p.bitmap (b / 32)).getLsbD (b % 32) := by
  have h : ∀ (x : Word) (k : Nat), (x >>> k &&& 1#32 != 0#32) = x.getLsbD k := by
    intro x k
    rw [BitVec.and_one_eq_setWidth_ofBool_getLsbD, BitVec.getLsbD_ushiftRight, Nat.add_zero]
    cases x.getLsbD k <;> rfl
  exact h _ _

theorem getLsbD_bit (k i : Nat) (hk : k < 32) : (1#32 <<< k).getLsbD i = decide (k = i) := by
  rw [← BitVec.twoPow_eq, BitVec.getLsbD_twoPow]
  simp [hk]

theorem mask_eq_zero (x : Word) (k : Nat) (hk : k < 32) :
    x &&& (1#32 <<< k) = 0#32 ↔ x.getLsbD k = false := by
  constructor
  · intro h
    have := congrArg (fun y => y.getLsbD k) h
    simpa [BitVec.getLsbD_and, getLsbD_bit k k hk] using this
  · intro h
    apply BitVec.eq_of_getLsbD_eq
    intro i _
    rw [BitVec.getLsbD_and, getLsbD_bit k i hk]
    by_cases e : k = i
    · subst e; simp [h]
    · simp [e]

@[simp] theorem testBit_setBit (p : Pmm) (b c : Nat) :
    (p.setBit b).testBit c = (p.testBit c || decide (c = b)) := by
  simp only [testBit_eq, setBit]
  by_cases chunk : c / 32 = b / 32
  · rw [chunk, Function.update_self, BitVec.getLsbD_or, getLsbD_bit _ _ (Nat.mod_lt _ (by decide))]
    congr 2
    apply propext
    omega
  · rw [Function.update_of_ne chunk]
    have : c ≠ b := fun e => chunk (by rw [e])
    simp [this]

@[simp] theorem testBit_unsetBit (p : Pmm) (b c : Nat) :
    (p.unsetBit b).testBit c = (p.testBit c && decide (c ≠ b)) := by
  simp only [testBit_eq, unsetBit]
  by_cases chunk : c / 32 = b / 32
  · have bit : c % 32 < 32 := Nat.mod_lt _ (by decide)
    rw [chunk, Function.update_self, BitVec.getLsbD_and, BitVec.getLsbD_not,
      getLsbD_bit _ _ (Nat.mod_lt _ (by decide))]
    have : (b % 32 = c % 32) ↔ (c = b) := by omega
    simp [bit, this]
  · rw [Function.update_of_ne chunk]
    have : c ≠ b := fun e => chunk (by rw [e])
    simp [this]

/-! ## The searches -/

theorem toInt_eq {i : Nat} (small : i < 2 ^ 31) : toInt i = i := by
  rw [toInt, BitVec.toInt_eq_toNat_of_lt]
  · rw [BitVec.toNat_ofNat, Nat.mod_eq_of_lt (by omega)]
  · rw [BitVec.toNat_ofNat]
    omega

theorem numChunks_eq {p : Pmm} (indexed : p.totalBlock.toNat < 2 ^ 31) : p.numChunks = (p.totalBlock.toNat + 31) / 32 := by
  rw [numChunks, BitVec.toNat_add, BitVec.toNat_ofNat, Nat.mod_eq_of_lt (by omega)]

/-- Blocks `i .. i+n-1` lie in memory and are all free. -/
def FreeRun (p : Pmm) (i n : Nat) : Prop :=
  i + n ≤ p.totalBlock.toNat ∧ ∀ k < n, p.testBit (i + k) = false

/-- `r` is the least start of a free run of `n` blocks, or `-1` when there is none. -/
def FirstRun (p : Pmm) (n : Nat) (r : Int) : Prop :=
  (r = -1 ∧ ∀ i, ¬ p.FreeRun i n) ∨ ∃ i : Nat, r = i ∧ p.FreeRun i n ∧ ∀ c < i, ¬ p.FreeRun c n

theorem FirstRun.unique {p : Pmm} {n : Nat} {r s : Int} (first : p.FirstRun n r) (other : p.FirstRun n s) : r = s := by
  rcases first with ⟨rfl, none⟩ | ⟨i, rfl, run, least⟩
  · rcases other with ⟨rfl, -⟩ | ⟨j, rfl, run', -⟩
    · rfl
    · exact absurd run' (none j)
  · rcases other with ⟨rfl, none⟩ | ⟨j, rfl, run', least'⟩
    · exact absurd run (none i)
    · rcases Nat.lt_trichotomy i j with lt | rfl | gt
      · exact absurd run (least' i lt)
      · rfl
      · exact absurd run' (least j gt)

theorem FirstRun.start {p : Pmm} {n i : Nat} (first : p.FirstRun n i) : p.FreeRun i n ∧ ∀ c < i, ¬ p.FreeRun c n := by
  rcases first with ⟨same, -⟩ | ⟨j, same, run⟩
  · omega
  · obtain rfl : i = j := by omega
    exact run

theorem FirstRun.none {p : Pmm} {n : Nat} (first : p.FirstRun n (-1)) : ∀ i, ¬ p.FreeRun i n := by
  rcases first with ⟨-, none⟩ | ⟨j, same, -⟩
  · exact none
  · omega

theorem bitmap_mask (p : Pmm) (i j : Nat) (hj : j < 32) :
    p.bitmap i &&& (1#32 <<< j) = 0#32 ↔ p.testBit (i * 32 + j) = false := by
  rw [mask_eq_zero _ _ hj, testBit_eq]
  have : (i * 32 + j) / 32 = i := by omega
  have : (i * 32 + j) % 32 = j := by omega
  simp [*]

theorem firstRun_none {p : Pmm} (all : ∀ c < p.totalBlock.toNat, p.testBit c = true) :
    p.FirstRun 1 (-1) := by
  refine .inl ⟨rfl, fun i run => ?_⟩
  have free := run.2 0 (by decide)
  simp [all i (by have := run.1; omega)] at free

theorem firstRun_one {p : Pmm} {b : Nat} (below : ∀ c < b, p.testBit c = true)
    (inside : b < p.totalBlock.toNat) (free : p.testBit b = false) : p.FirstRun 1 b := by
  refine .inr ⟨b, rfl, ⟨by omega, fun k hk => ?_⟩, fun c hc run => ?_⟩
  · obtain rfl : k = 0 := by omega
    exact free
  · have := run.2 0 (by decide)
    simp [below c hc] at this

theorem findFreeBit_spec {p : Pmm} (indexed : p.totalBlock.toNat < 2 ^ 31) (i : Nat) {n j : Nat} (sum : n + j = 32)
    (below : ∀ c < i * 32 + j, c < p.totalBlock.toNat → p.testBit c = true) :
    match findFreeBit p i n j with
    | some r => p.FirstRun 1 r
    | none => ∀ c < (i + 1) * 32, c < p.totalBlock.toNat → p.testBit c = true := by
  induction n generalizing j with
  | zero =>
      intro c hc
      exact below c (by omega)
  | succ n ih =>
      unfold findFreeBit
      split_ifs with past free
      · exact firstRun_none fun c hc => below c (by omega) hc
      · rw [bitmap_mask p i j (by omega)] at free
        rw [toInt_eq (by omega)]
        exact firstRun_one (fun c hc => below c hc (by omega)) (by omega) free
      · rw [bitmap_mask p i j (by omega), Bool.not_eq_false] at free
        apply ih (by omega)
        intro c hc inside
        rcases Nat.lt_or_eq_of_le (Nat.le_of_lt_succ hc) with lt | rfl
        · exact below c lt inside
        · exact free

theorem findFreeChunk_spec {p : Pmm} (indexed : p.totalBlock.toNat < 2 ^ 31) {n i : Nat} (sum : n + i = p.numChunks)
    (below : ∀ c < i * 32, c < p.totalBlock.toNat → p.testBit c = true) :
    p.FirstRun 1 (findFreeChunk p n i) := by
  induction n generalizing i with
  | zero =>
      apply firstRun_none
      intro c hc
      apply below c _ hc
      rw [numChunks_eq indexed] at sum
      omega
  | succ n ih =>
      unfold findFreeChunk
      split_ifs with full
      · apply ih (by omega)
        intro c hc inside
        by_cases old : c < i * 32
        · exact below c old inside
        · have chunk : c / 32 = i := by omega
          have bit : c % 32 < 32 := Nat.mod_lt _ (by decide)
          rw [testBit_eq, chunk, full, show (0xffffffff#32) = BitVec.allOnes 32 from rfl,
            BitVec.getLsbD_allOnes]
          simpa using bit
      · have inner := findFreeBit_spec indexed i (n := 32) (j := 0) rfl below
        split
        · next found h => simpa [h] using inner
        · next h =>
            rw [h] at inner
            exact ih (by omega) inner

theorem findFirstFreeBlock_spec {p : Pmm} (indexed : p.totalBlock.toNat < 2 ^ 31) : p.FirstRun 1 p.findFirstFreeBlock :=
  findFreeChunk_spec indexed rfl (by simp)

theorem freeRunLength_spec (p : Pmm) (i : Nat) {c n k : Nat} (sum : n + k = c)
    (free : ∀ j < k, p.testBit (i + j) = false) :
    (freeRunLength p i n k ≤ c) ∧ (∀ j < freeRunLength p i n k, p.testBit (i + j) = false) ∧
      (freeRunLength p i n k ≠ c → p.testBit (i + freeRunLength p i n k) = true) := by
  induction n generalizing k with
  | zero =>
      have same : k = c := by omega
      exact ⟨same.le, free, fun h => absurd same h⟩
  | succ n ih =>
      unfold freeRunLength
      split_ifs with used
      · exact ⟨by omega, free, fun _ => used⟩
      · apply ih (by omega)
        intro j hj
        rcases Nat.lt_or_eq_of_le (Nat.le_of_lt_succ hj) with lt | rfl
        · exact free j lt
        · simpa using used

theorem FreeRun.not_of_used {p : Pmm} {c n b : Nat} (run : p.FreeRun c n) (low : c ≤ b)
    (high : b < c + n) : p.testBit b = false := by
  have := run.2 (b - c) (by omega)
  rwa [Nat.add_sub_cancel' low] at this

theorem findRun_spec {p : Pmm} (indexed : p.totalBlock.toNat < 2 ^ 31) {cnt turns i : Nat} (pos : 0 < cnt)
    (fits : cnt ≤ p.totalBlock.toNat)
    (enough : p.totalBlock.toNat - cnt < turns + i) (below : ∀ c < i, ¬ p.FreeRun c cnt) :
    p.FirstRun cnt (findRun p cnt turns i) := by
  induction turns generalizing i with
  | zero =>
      refine .inl ⟨rfl, fun c run => ?_⟩
      exact below c (by have := run.1; omega) run
  | succ turns ih =>
      unfold findRun
      split_ifs with inside used
      · apply ih (by omega)
        intro c hc run
        rcases Nat.lt_or_eq_of_le (Nat.le_of_lt_succ hc) with lt | rfl
        · exact below c lt run
        · simp [run.not_of_used (b := c) (le_refl c) (by omega)] at used
      · have length := freeRunLength_spec p i (c := cnt) (n := cnt - 1) (k := 1) (by omega)
          (fun j hj => by obtain rfl : j = 0 := by omega
                          simpa using used)
        dsimp only
        split_ifs with complete
        · rw [complete] at length
          rw [toInt_eq (by omega)]
          exact .inr ⟨i, rfl, ⟨by omega, length.2.1⟩, below⟩
        · have blocked := length.2.2 complete
          apply ih (by omega)
          intro c hc run
          by_cases old : c < i
          · exact below c old run
          · have free := run.not_of_used (b := i + freeRunLength p i (cnt - 1) 1) (by omega)
              (by have := length.1; omega)
            simp [blocked] at free
      · refine .inl ⟨rfl, fun c run => ?_⟩
        exact below c (by have := run.1; omega) run

theorem findFirstFree_spec {p : Pmm} (indexed : p.totalBlock.toNat < 2 ^ 31) (cnt : Word) (pos : cnt ≠ 0) :
    p.FirstRun cnt.toNat (p.findFirstFree cnt) := by
  unfold findFirstFree
  rw [if_neg pos]
  have nat : 0 < cnt.toNat := by
    rcases Nat.eq_zero_or_pos cnt.toNat with h | h
    · exact absurd (BitVec.eq_of_toNat_eq (by simpa using h)) pos
    · exact h
  split_ifs with one big
  · subst one
    exact findFirstFreeBlock_spec indexed
  · refine .inl ⟨rfl, fun i run => ?_⟩
    have := run.1
    simp only [gt_iff_lt, BitVec.lt_def] at big
    omega
  · simp only [gt_iff_lt, BitVec.lt_def, not_lt] at big
    exact findRun_spec indexed nat big (by omega) (by simp)

theorem findFirstFreeBlock_eq_findRun {p : Pmm} (indexed : p.totalBlock.toNat < 2 ^ 31) (some : p.totalBlock ≠ 0) :
    p.findFirstFreeBlock = p.findRun 1 (p.totalBlock.toNat + 1) 0 := by
  have nonempty : 1 ≤ p.totalBlock.toNat := by
    rcases Nat.eq_zero_or_pos p.totalBlock.toNat with none | some'
    · exact absurd (BitVec.eq_of_toNat_eq none) some
    · exact some'
  exact (findFirstFreeBlock_spec indexed).unique (findRun_spec indexed Nat.one_pos nonempty (by omega) (by simp))

/-- What `pmmngr_init` leaves in `total_block`: no index of the searches wraps, and each fits an `int`. -/
theorem init_totalBlock_lt (size : Word) : (init size).totalBlock.toNat < 2 ^ 20 := by
  have := size.isLt
  rw [init, BitVec.toNat_ofNat, pageSize, Nat.mod_eq_of_lt (by omega)]
  omega

theorem findFirstFree_zero (p : Pmm) : p.findFirstFree 0 = -1 := rfl

/-- Wherever every index fits the `int` that is returned, as `pmmngr_init` provides. -/
theorem findFirstFree_first_fit (p : Pmm) (indexed : p.totalBlock.toNat < 2 ^ 31) (cnt : Word) :
    (∀ i : Nat, p.findFirstFree cnt = i ↔
      cnt ≠ 0 ∧ p.FreeRun i cnt.toNat ∧ ∀ c < i, ¬ p.FreeRun c cnt.toNat) ∧
    (p.findFirstFree cnt = -1 ↔ cnt = 0 ∨ ∀ i, ¬ p.FreeRun i cnt.toNat) ∧
    p.FirstRun 1 p.findFirstFreeBlock ∧
    (p.totalBlock ≠ 0 → p.findFirstFreeBlock = p.findRun 1 (p.totalBlock.toNat + 1) 0) := by
  refine ⟨fun i => ?_, ?_, findFirstFreeBlock_spec indexed, findFirstFreeBlock_eq_findRun indexed⟩
  · by_cases zero : cnt = 0
    · subst zero
      rw [findFirstFree_zero]
      exact ⟨fun same => absurd same (by omega), fun run => absurd rfl run.1⟩
    · have found := findFirstFree_spec indexed cnt zero
      constructor
      · intro same
        rw [same] at found
        exact ⟨zero, found.start⟩
      · rintro ⟨-, run, least⟩
        exact found.unique (.inr ⟨i, rfl, run, least⟩)
  · by_cases zero : cnt = 0
    · subst zero
      exact ⟨fun _ => .inl rfl, fun _ => findFirstFree_zero p⟩
    · have found := findFirstFree_spec indexed cnt zero
      constructor
      · intro none
        rw [none] at found
        exact .inr found.none
      · rintro (none | none)
        · exact absurd none zero
        · exact found.unique (.inl ⟨rfl, none⟩)

-- forty blocks, of which 2, 5 and 6 are free and those from 33 on
def holes : Pmm := ⟨fun i => if i = 0 then 0xffffff9b#32 else 1#32, 30#32, 40#32⟩

theorem findFirstFree_first_fit_holes :
    (∀ i : Nat, holes.findFirstFree 2 = i ↔ (2 : Word) ≠ 0 ∧ holes.FreeRun i 2 ∧ ∀ c < i, ¬ holes.FreeRun c 2) ∧
    (holes.findFirstFree 2 = -1 ↔ (2 : Word) = 0 ∨ ∀ i, ¬ holes.FreeRun i 2) ∧
    holes.FirstRun 1 holes.findFirstFreeBlock ∧
    (holes.totalBlock ≠ 0 → holes.findFirstFreeBlock = holes.findRun 1 (holes.totalBlock.toNat + 1) 0) :=
  findFirstFree_first_fit holes (by decide) 2

example : holes.findFirstFree 2 = 5 := by decide

end Kerosene.Mem.Pmm
