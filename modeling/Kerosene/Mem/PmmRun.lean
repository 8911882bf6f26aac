import Kerosene.Lib.Count
import Kerosene.Lib.Machine
import Kerosene.Mem.PmmSearch
import Mathlib.Data.List.Basic
import Mathlib.Data.List.Range

namespace Kerosene.Mem.Pmm
open Lib

def usedBelow (p : Pmm) (n : Nat) : Nat := Nat.count (fun b => p.testBit b = true) n

def usedCount (p : Pmm) : Nat := p.usedBelow p.totalBlock.toNat

structure Sound (p : Pmm) : Prop where
  used : p.usedBlock.toNat = p.usedCount
  fits : p.totalBlock.toNat ≤ bitmapWords * 32
  zero : p.testBit 0 = true

theorem Sound.indexed {p : Pmm} (sound : p.Sound) : p.totalBlock.toNat < 2 ^ 31 :=
  sound.fits.trans_lt (by decide)

theorem usedBelow_le (p : Pmm) (n : Nat) : p.usedBelow n ≤ n := Nat.count_le _

theorem usedBelow_succ (p : Pmm) (n : Nat) :
    p.usedBelow (n + 1) = p.usedBelow n + if p.testBit n = true then 1 else 0 := Nat.count_succ _ n

@[simp] theorem totalBlock_setBit (p : Pmm) (b : Nat) : (p.setBit b).totalBlock = p.totalBlock := rfl
@[simp] theorem totalBlock_unsetBit (p : Pmm) (b : Nat) : (p.unsetBit b).totalBlock = p.totalBlock := rfl

@[simp] theorem testBit_withUsed (p : Pmm) (used : Word) (b : Nat) :
    (p.withUsed used).testBit b = p.testBit b := rfl
@[simp] theorem usedCount_withUsed (p : Pmm) (used : Word) :
    (p.withUsed used).usedCount = p.usedCount := rfl
@[simp] theorem totalBlock_withUsed (p : Pmm) (used : Word) :
    (p.withUsed used).totalBlock = p.totalBlock := rfl
@[simp] theorem usedBlock_withUsed (p : Pmm) (used : Word) : (p.withUsed used).usedBlock = used := rfl

theorem setFrom_spec (p : Pmm) (n s : Nat) :
    (p.setFrom n s).totalBlock = p.totalBlock ∧
      ∀ c, (p.setFrom n s).testBit c = (p.testBit c || decide (s ≤ c ∧ c < s + n)) := by
  induction n generalizing p s with
  | zero =>
      refine ⟨rfl, fun c => ?_⟩
      simp [setFrom]
  | succ n ih =>
      obtain ⟨total, bits⟩ := ih (p.setBit s) (s + 1)
      refine ⟨total, fun c => ?_⟩
      rw [setFrom, bits, testBit_setBit, Bool.or_assoc]
      congr 1
      rw [← Bool.decide_or]
      congr 1
      apply propext
      omega

theorem unsetFrom_spec (p : Pmm) (n s : Nat) : (p.unsetFrom n s).totalBlock = p.totalBlock := by
  induction n generalizing p s with
  | zero => rfl
  | succ n ih => exact ih (p.unsetBit s) (s + 1)

/-! ## Counting the blocks in use -/

theorem countBits_spec (p : Pmm) (i : Nat) {n j : Nat} (sum : n + j = 32) (used : Word)
    (counted : used.toNat = p.usedBelow (min (i * 32 + j) p.totalBlock.toNat)) :
    (countBits p i n j used).toNat = p.usedBelow (min ((i + 1) * 32) p.totalBlock.toNat) := by
  induction n generalizing j used with
  | zero =>
      have : i * 32 + j = (i + 1) * 32 := by omega
      rw [countBits, counted, this]
  | succ n ih =>
      unfold countBits
      split_ifs with past set
      · rw [counted]
        congr 1
        omega
      · have bit : p.testBit (i * 32 + j) = true := by
          rwa [Ne, bitmap_mask p i j (by omega), Bool.not_eq_false] at set
        apply ih (by omega)
        have bound := p.usedBelow_le (i * 32 + j)
        have total := p.totalBlock.isLt
        rw [BitVec.toNat_add, counted, show min (i * 32 + j) p.totalBlock.toNat = i * 32 + j by omega,
          show min (i * 32 + (j + 1)) p.totalBlock.toNat = i * 32 + j + 1 by omega, usedBelow_succ, if_pos bit,
          BitVec.toNat_ofNat]
        omega
      · have bit : p.testBit (i * 32 + j) = false := by
          rwa [Ne, not_not, bitmap_mask p i j (by omega)] at set
        apply ih (by omega)
        rw [counted, show min (i * 32 + j) p.totalBlock.toNat = i * 32 + j by omega,
          show min (i * 32 + (j + 1)) p.totalBlock.toNat = i * 32 + j + 1 by omega, usedBelow_succ]
        simp [bit]

theorem usedBelow_full (p : Pmm) (i : Nat) (full : p.bitmap i = 0xffffffff#32) :
    p.usedBelow ((i + 1) * 32) = p.usedBelow (i * 32) + 32 := by
  have all : ∀ k < 32, p.testBit (i * 32 + k) = true := by
    intro k hk
    have chunk : (i * 32 + k) / 32 = i := by omega
    have bit : (i * 32 + k) % 32 = k := by omega
    rw [testBit_eq, chunk, bit, full, show (0xffffffff#32) = BitVec.allOnes 32 from rfl,
      BitVec.getLsbD_allOnes]
    simpa using hk
  rw [Nat.add_mul, Nat.one_mul, usedBelow, usedBelow, Nat.count_add]
  congr 1
  exact Nat.count_iff_forall.mpr all

theorem countChunks_spec {p : Pmm} (indexed : p.totalBlock.toNat < 2 ^ 31) {n i : Nat} (sum : n + i = p.numChunks) (used : Word)
    (counted : used.toNat = p.usedBelow (min (i * 32) p.totalBlock.toNat)) :
    (countChunks p n i used).toNat = p.usedCount := by
  induction n generalizing i used with
  | zero =>
      rw [countChunks, counted, usedCount]
      congr 1
      rw [numChunks_eq indexed] at sum
      omega
  | succ n ih =>
      have inside : i * 32 < p.totalBlock.toNat := by
        rw [numChunks_eq indexed] at sum
        omega
      unfold countChunks
      split_ifs with full
      · have whole : (i + 1) * 32 ≤ p.totalBlock.toNat := by
          by_cases last : i = p.numChunks - 1 ∧ p.totalBlock.toNat % 32 ≠ 0
          · have bits := full.2
            rw [bitsInThisChunk, if_pos last] at bits
            omega
          · rw [numChunks_eq indexed] at sum last
            omega
        have total := p.totalBlock.isLt
        have bound := p.usedBelow_le (i * 32)
        apply ih (by omega)
        rw [BitVec.toNat_add, counted, min_eq_left inside.le, min_eq_left whole, usedBelow_full p i full.1,
          BitVec.toNat_ofNat]
        omega
      · exact ih (by omega) _ (countBits_spec p i rfl used (by simpa using counted))

theorem updateUsage_used {p : Pmm} (indexed : p.totalBlock.toNat < 2 ^ 31) : p.updateUsage.usedBlock.toNat = p.usedCount := by
  apply countChunks_spec indexed rfl
  simp [usedBelow]

/-! ## Start-up -/

structure Region where
  base : Word
  size : Word
  usable : Bool
  inside : base.toNat / pageSize + size.toNat / pageSize ≤ bitmapWords * 32

def Region.apply (p : Pmm) (r : Region) : Pmm :=
  if r.usable then p.initRegion r.base r.size else p.deinitRegion r.base r.size

def boot (size : Word) (regions : List Region) : Pmm :=
  (regions.foldl Region.apply (init size)).updateUsage

theorem region_apply_spec (p : Pmm) (r : Region) :
    (r.apply p).totalBlock = p.totalBlock ∧ (p.testBit 0 = true → (r.apply p).testBit 0 = true) := by
  unfold Region.apply
  split_ifs
  · exact ⟨unsetFrom_spec p _ _, fun _ => by simp [initRegion]⟩
  · obtain ⟨total, bits⟩ := setFrom_spec p (r.size.toNat / pageSize) (r.base.toNat / pageSize)
    exact ⟨total, fun zero => by simp [deinitRegion, bits, zero]⟩

theorem regions_spec (regions : List Region) (p : Pmm) (zero : p.testBit 0 = true) :
    (regions.foldl Region.apply p).totalBlock = p.totalBlock ∧
      (regions.foldl Region.apply p).testBit 0 = true := by
  induction regions generalizing p with
  | nil => exact ⟨rfl, zero⟩
  | cons r rest ih =>
      obtain ⟨total, keeps⟩ := region_apply_spec p r
      obtain ⟨totals, zeros⟩ := ih (r.apply p) (keeps zero)
      exact ⟨totals.trans total, zeros⟩

theorem boot_sound (size : Word) (regions : List Region)
    (fits : size.toNat / pageSize ≤ bitmapWords * 32) : (boot size regions).Sound := by
  obtain ⟨total, zero⟩ := regions_spec regions (init size) (by simp [testBit, init])
  refine ⟨updateUsage_used (by rw [total]; exact (init_totalBlock_lt size).trans (by decide)), ?_, zero⟩
  have : (boot size regions).totalBlock = (init size).totalBlock := total
  rw [this, init, BitVec.toNat_ofNat]
  exact (Nat.mod_le _ _).trans fits

/-! ## One call -/

theorem FreeRun.used_add_le {p : Pmm} {i n : Nat} (run : p.FreeRun i n) :
    p.usedCount + n ≤ p.totalBlock.toNat := by
  have count := count_interval (p := fun b => p.testBit b = true)
    (q := fun b => p.testBit b = true ∨ (i ≤ b ∧ b < i + n)) run.1
    (fun c low high => by simp [run.not_of_used low high]) (fun c => Iff.rfl)
  have : p.usedCount + n = _ := count.symm
  rw [this]
  exact Nat.count_le _

/-- What an allocation of `cnt` blocks answers and does. -/
structure Allocates (p : Pmm) (cnt : Nat) (out : Word × Pmm) : Prop where
  refuses : out.1 = 0 ↔ cnt = 0 ∨ ∀ i, ¬ p.FreeRun i cnt
  keeps : out.1 = 0 → out.2 = p
  takes : out.1 ≠ 0 → ∃ i, i ≠ 0 ∧ out.1.toNat = i * pageSize ∧ p.FreeRun i cnt ∧
    ∀ b, out.2.testBit b = (p.testBit b || decide (i ≤ b ∧ b < i + cnt))
  sound : out.2.Sound
  total : out.2.totalBlock = p.totalBlock

theorem allocates_none {p : Pmm} {cnt : Nat} (sound : p.Sound)
    (none : cnt = 0 ∨ ∀ i, ¬ p.FreeRun i cnt) : p.Allocates cnt (0, p) :=
  ⟨⟨fun _ => none, fun _ => rfl⟩, fun _ => rfl, fun h => absurd rfl h, sound, rfl⟩

theorem frameAddr_toNat {i : Nat} (low : i < bitmapWords * 32) : (frameAddr i).toNat = i * pageSize := by
  have cast : ((i : Int) * (pageSize : Int)) = ((i * pageSize : Nat) : Int) := by simp
  rw [frameAddr, cast, BitVec.ofInt_natCast, BitVec.toNat_ofNat]
  apply Nat.mod_eq_of_lt
  simp only [bitmapWords, pageSize] at low ⊢
  omega

theorem allocates_run {p : Pmm} {i : Nat} {n : Word} (sound : p.Sound) (pos : n ≠ 0)
    (run : p.FreeRun i n.toNat) :
    p.Allocates n.toNat
      (frameAddr i, (p.setFrom n.toNat i).withUsed (p.usedBlock + n)) := by
  have nat : 0 < n.toNat := by
    rcases Nat.eq_zero_or_pos n.toNat with h | h
    · exact absurd (BitVec.eq_of_toNat_eq (by simpa using h)) pos
    · exact h
  have nonzero : i ≠ 0 := by
    rintro rfl
    simpa [sound.zero] using run.2 0 nat
  have addr : (frameAddr i).toNat = i * pageSize :=
    frameAddr_toNat (by have := run.1; have := sound.fits; omega)
  have answer : frameAddr i ≠ 0 := by
    intro h
    rw [h] at addr
    simp [pageSize] at addr
    exact nonzero addr
  obtain ⟨total, bits⟩ := setFrom_spec p n.toNat i
  refine ⟨⟨fun h => absurd h answer, ?_⟩, fun h => absurd h answer,
    fun _ => ⟨i, nonzero, addr, run, bits⟩, ⟨?_, ?_, ?_⟩, total⟩
  · rintro (zero | none)
    · omega
    · exact absurd run (none i)
  · have counted : (p.setFrom n.toNat i).usedCount = p.usedCount + n.toNat := by
      simp only [usedCount, total]
      exact count_interval run.1 (fun c low high => by simp [run.not_of_used low high])
        (fun c => by simp [bits])
    have room := run.used_add_le
    have := p.totalBlock.isLt
    rw [usedBlock_withUsed, usedCount_withUsed, counted, BitVec.toNat_add, sound.used]
    omega
  · simpa [total] using sound.fits
  · simp [bits, sound.zero]

theorem allocMultiBlock_spec {p : Pmm} (sound : p.Sound) (cnt : Word) :
    p.Allocates cnt.toNat (p.allocMultiBlock cnt) := by
  unfold allocMultiBlock
  split_ifs with full
  · -- the 32-bit sum can only wrap to something below `used_block`
    apply allocates_none sound
    refine .inr fun i run => ?_
    have room := run.used_add_le
    have := p.totalBlock.isLt
    rw [gt_iff_lt, BitVec.lt_def, BitVec.toNat_add, sound.used] at full
    omega
  · by_cases zero : cnt = 0
    · subst zero
      exact allocates_none sound (.inl rfl)
    · rcases findFirstFree_spec sound.indexed cnt zero with ⟨minus, none⟩ | ⟨i, found, run, _⟩
      · simpa [minus] using allocates_none sound (.inr none)
      · simpa [found] using allocates_run sound zero run

theorem allocBlock_spec {p : Pmm} (sound : p.Sound) : p.Allocates 1 p.allocBlock := by
  unfold allocBlock
  split_ifs with full
  · apply allocates_none sound
    refine .inr fun i run => ?_
    have room := run.used_add_le
    rw [full, sound.used] at room
    omega
  · rcases findFirstFreeBlock_spec sound.indexed with ⟨minus, none⟩ | ⟨i, found, run, _⟩
    · simpa [minus] using allocates_none sound (.inr none)
    · simpa [found, setFrom] using allocates_run (n := 1#32) sound (by decide) run

theorem allocBlock_refused {p : Pmm} (sound : p.Sound) : p.allocBlock.1 = 0#32 ↔ p.totalBlock = p.usedBlock := by
  constructor
  · intro refused
    have none := ((allocBlock_spec sound).refuses.mp refused).resolve_left (by decide)
    have all : ∀ b < p.totalBlock.toNat, p.testBit b = true := by
      intro b inside
      by_contra free
      refine none b ⟨by omega, fun k below => ?_⟩
      rw [show b + k = b by omega]
      exact Bool.not_eq_true _ ▸ free
    apply BitVec.eq_of_toNat_eq
    rw [sound.used]
    exact (Nat.count_iff_forall.mpr all).symm
  · intro full
    rw [allocBlock, if_pos full]
    rfl

theorem release_spec {p : Pmm} {b : Nat} (sound : p.Sound) (nonzero : b ≠ 0)
    (inside : b < p.totalBlock.toNat) :
    (p.release b).Sound ∧ (p.release b).totalBlock = p.totalBlock ∧
      ∀ c, (p.release b).testBit c = (p.testBit c && decide (c ≠ b)) := by
  unfold release
  split_ifs with used
  · have counted : p.usedCount = (p.unsetBit b).usedCount + 1 :=
      count_insert (p := fun c => (p.unsetBit b).testBit c = true) (q := fun c => p.testBit c = true) inside
        (by simp) used (fun c hc => by simp [hc])
    refine ⟨⟨?_, sound.fits, by simp [sound.zero, nonzero.symm]⟩, rfl, fun c => by simp⟩
    have bound := p.usedBlock.isLt
    rw [usedBlock_withUsed, usedCount_withUsed, BitVec.toNat_sub, sound.used, BitVec.toNat_ofNat]
    rw [sound.used] at bound
    omega
  · refine ⟨sound, rfl, fun c => ?_⟩
    by_cases same : c = b
    · subst same
      simpa using used
    · simp [same]

theorem releaseFrom_spec {p : Pmm} {n b : Nat} (sound : p.Sound) (nonzero : b ≠ 0) :
    (p.releaseFrom n b).Sound ∧ (p.releaseFrom n b).totalBlock = p.totalBlock ∧
      ∀ c < p.totalBlock.toNat,
        (p.releaseFrom n b).testBit c = (p.testBit c && !decide (b ≤ c ∧ c < b + n)) := by
  induction n generalizing p b with
  | zero =>
      refine ⟨sound, rfl, fun c _ => ?_⟩
      have : ¬ (b ≤ c ∧ c < b + 0) := by omega
      simp only [releaseFrom, this, decide_false, Bool.not_false, Bool.and_true]
  | succ n ih =>
      unfold releaseFrom
      split_ifs with past
      · refine ⟨sound, rfl, fun c hc => ?_⟩
        have : ¬ (b ≤ c ∧ c < b + (n + 1)) := by omega
        simp [this]
      · obtain ⟨sound', total, bits⟩ := release_spec sound nonzero (by omega)
        obtain ⟨sound'', total', bits'⟩ := ih (b := b + 1) sound' (by omega)
        refine ⟨sound'', total'.trans total, fun c hc => ?_⟩
        rw [bits' c (by rwa [total]), bits, Bool.and_assoc]
        congr 1
        rw [← decide_not, ← decide_not, ← Bool.decide_and]
        congr 1
        apply propext
        omega

/-! ## Runs -/

inductive Call where
  | allocBlock
  | allocMultiBlock (cnt : Word)
  | freeBlock (addr : Word)
  | freeMultiBlock (addr cnt : Word)

/-- The allocator, with the blocks of every run it has handed out and not been given back. -/
structure Ledger where
  pmm : Pmm
  held : List (List Nat)

def blocksOf (addr : Word) (cnt : Nat) : List Nat := List.range' (addr.toNat / pageSize) cnt

def Ledger.handOut (l : Ledger) (cnt : Nat) (out : Word × Pmm) : Ledger :=
  ⟨out.2, if out.1 = 0 then l.held else blocksOf out.1 cnt :: l.held⟩

def Ledger.takeBack (l : Ledger) (blocks : List Nat) (after : Pmm) : Ledger :=
  ⟨after, l.held.map fun run => run.filter fun b => b ∉ blocks⟩

/-- The blocks a free call releases: none for a run that starts at block 0. -/
def releasedBlocks (addr : Word) (cnt : Nat) : List Nat :=
  if addr.toNat / pageSize = 0 then [] else blocksOf addr cnt

def Ledger.exec (l : Ledger) : Call → Ledger
  | .allocBlock => l.handOut 1 l.pmm.allocBlock
  | .allocMultiBlock cnt => l.handOut cnt.toNat (l.pmm.allocMultiBlock cnt)
  | .freeBlock addr => l.takeBack (releasedBlocks addr 1) (l.pmm.freeBlock addr)
  | .freeMultiBlock addr cnt => l.takeBack (releasedBlocks addr cnt.toNat) (l.pmm.freeMultiBlock addr cnt)

def Call.Inside (l : Ledger) : Call → Prop
  | .freeBlock addr | .freeMultiBlock addr _ => addr.toNat < l.pmm.totalBlock.toNat * pageSize
  | _ => True

def allocator : Machine Ledger Call where
  Legal := Call.Inside
  step l call := some (l.exec call)

structure Ledger.Sound (l : Ledger) : Prop where
  pmm : l.pmm.Sound
  disjoint : l.held.Pairwise List.Disjoint
  inUse : ∀ run ∈ l.held, ∀ b ∈ run, b ≠ 0 ∧ b < l.pmm.totalBlock.toNat ∧ l.pmm.testBit b = true

theorem mem_blocksOf {addr : Word} {cnt b : Nat} :
    b ∈ blocksOf addr cnt ↔ addr.toNat / pageSize ≤ b ∧ b < addr.toNat / pageSize + cnt := by
  simp [blocksOf]

theorem Ledger.Sound.handOut {l : Ledger} (sound : l.Sound) {cnt : Nat} {out : Word × Pmm}
    (alloc : l.pmm.Allocates cnt out) : (l.handOut cnt out).Sound := by
  by_cases refused : out.1 = 0
  · have same := alloc.keeps refused
    simpa [Ledger.handOut, refused, same] using sound
  · obtain ⟨i, nonzero, addr, run, bits⟩ := alloc.takes refused
    have start : out.1.toNat / pageSize = i := by
      rw [addr]
      exact Nat.mul_div_cancel _ (by decide)
    refine ⟨alloc.sound, ?_, ?_⟩
    · simp only [Ledger.handOut, refused, if_false, List.pairwise_cons]
      refine ⟨fun old member b new held => ?_, sound.disjoint⟩
      rw [mem_blocksOf, start] at new
      have used := (sound.inUse old member b held).2.2
      rw [run.not_of_used new.1 new.2] at used
      cases used
    · intro blocks member b held
      simp only [Ledger.handOut, refused, if_false, List.mem_cons] at member ⊢
      rw [alloc.total, bits]
      rcases member with rfl | member
      · rw [mem_blocksOf, start] at held
        have := run.1
        exact ⟨by omega, by omega, by simp [held]⟩
      · obtain ⟨low, high, used⟩ := sound.inUse blocks member b held
        exact ⟨low, high, by simp [used]⟩

theorem Ledger.Sound.takeBack {l : Ledger} (sound : l.Sound) {blocks : List Nat} {after : Pmm}
    (pmm : after.Sound) (total : after.totalBlock = l.pmm.totalBlock)
    (keeps : ∀ b < l.pmm.totalBlock.toNat, b ∉ blocks → l.pmm.testBit b = true → after.testBit b = true) :
    (l.takeBack blocks after).Sound := by
  refine ⟨pmm, ?_, ?_⟩
  · simp only [Ledger.takeBack]
    refine List.Pairwise.map _ (fun run other apart => ?_) sound.disjoint
    intro b left right
    exact apart (List.mem_of_mem_filter left) (List.mem_of_mem_filter right)
  · intro run member b held
    simp only [Ledger.takeBack, List.mem_map] at member ⊢
    obtain ⟨old, oldMember, rfl⟩ := member
    rw [List.mem_filter] at held
    obtain ⟨low, high, used⟩ := sound.inUse old oldMember b held.1
    exact ⟨low, total ▸ high, keeps b high (by simpa using held.2) used⟩

theorem freeBlock_spec {p : Pmm} (sound : p.Sound) (addr : Word)
    (inside : addr.toNat < p.totalBlock.toNat * pageSize) :
    (p.freeBlock addr).Sound ∧ (p.freeBlock addr).totalBlock = p.totalBlock ∧
      ∀ b, (p.freeBlock addr).testBit b = (p.testBit b && !decide (b ∈ releasedBlocks addr 1)) := by
  unfold freeBlock releasedBlocks
  dsimp only
  split_ifs with zero
  · exact ⟨sound, rfl, by simp⟩
  · have low : addr.toNat / pageSize < p.totalBlock.toNat :=
      (Nat.div_lt_iff_lt_mul (by decide)).mpr inside
    obtain ⟨sound', total, bits⟩ := release_spec sound zero low
    refine ⟨sound', total, fun b => ?_⟩
    rw [bits, ← decide_not]
    congr 2
    apply propext
    rw [mem_blocksOf]
    omega

theorem freeMultiBlock_spec {p : Pmm} (sound : p.Sound) (addr cnt : Word) :
    (p.freeMultiBlock addr cnt).Sound ∧ (p.freeMultiBlock addr cnt).totalBlock = p.totalBlock ∧
      ∀ b < p.totalBlock.toNat, (p.freeMultiBlock addr cnt).testBit b =
        (p.testBit b && !decide (b ∈ releasedBlocks addr cnt.toNat)) := by
  unfold freeMultiBlock releasedBlocks
  dsimp only
  split_ifs with zero
  · exact ⟨sound, rfl, by simp⟩
  · obtain ⟨sound', total, bits⟩ := releaseFrom_spec (n := cnt.toNat) sound zero
    refine ⟨sound', total, fun b hb => ?_⟩
    simp only [bits b hb, mem_blocksOf]

theorem Ledger.Sound.exec {l : Ledger} (sound : l.Sound) (call : Call) (legal : call.Inside l) :
    (l.exec call).Sound := by
  cases call with
  | allocBlock => exact sound.handOut (allocBlock_spec sound.pmm)
  | allocMultiBlock cnt => exact sound.handOut (allocMultiBlock_spec sound.pmm cnt)
  | freeBlock addr =>
      obtain ⟨pmm, total, bits⟩ := freeBlock_spec sound.pmm addr legal
      exact sound.takeBack pmm total fun b _ kept used => by simp [bits, kept, used]
  | freeMultiBlock addr cnt =>
      obtain ⟨pmm, total, bits⟩ := freeMultiBlock_spec sound.pmm addr cnt
      exact sound.takeBack pmm total fun b hb kept used => by simp [bits b hb, kept, used]

theorem boot_ledger_sound (size : Word) (regions : List Region)
    (fits : size.toNat / pageSize ≤ bitmapWords * 32) : (Ledger.mk (boot size regions) []).Sound :=
  ⟨boot_sound size regions fits, List.Pairwise.nil, by simp⟩

theorem reaches_sound {l m : Ledger} (sound : l.Sound) (run : allocator.Reaches l m) : m.Sound := by
  refine run.invariant (I := Ledger.Sound) ?_ sound
  rintro l call m sound legal ⟨⟩
  exact sound.exec call legal

/-- Over every run of the frame allocator, `used_block` counts the blocks in use, every allocation
hands out free blocks other than block 0 or refuses for want of a run, and outstanding runs are
disjoint. -/
theorem frame_allocator_correct (size : Word) (fits : size.toNat / pageSize ≤ bitmapWords * 32)
    (regions : List Region) (l : Ledger) (run : allocator.Reaches ⟨boot size regions, []⟩ l) :
    l.pmm.usedBlock.toNat = Nat.count (fun b => l.pmm.testBit b = true) l.pmm.totalBlock.toNat ∧
    l.pmm.Allocates 1 l.pmm.allocBlock ∧
    (∀ cnt : Word, l.pmm.Allocates cnt.toNat (l.pmm.allocMultiBlock cnt)) ∧
    l.held.Pairwise List.Disjoint ∧
    (∀ blocks ∈ l.held, ∀ b ∈ blocks, b ≠ 0 ∧ l.pmm.testBit b = true) := by
  have sound := reaches_sound (boot_ledger_sound size regions fits) run
  exact ⟨sound.pmm.used, allocBlock_spec sound.pmm, allocMultiBlock_spec sound.pmm, sound.disjoint,
    fun blocks member b held => ⟨(sound.inUse blocks member b held).1, (sound.inUse blocks member b held).2.2⟩⟩

def fiveBlocks : Region := ⟨0#32, 0x5000#32, true, by decide⟩

theorem frame_allocator_correct_two_blocks :
    (((Ledger.mk (boot 0x5000#32 [fiveBlocks]) []).exec (.allocMultiBlock 2#32)).pmm.usedBlock.toNat = 3) ∧
    ((Ledger.mk (boot 0x5000#32 [fiveBlocks]) []).exec (.allocMultiBlock 2#32)).held = [[1, 2]] :=
  ⟨(frame_allocator_correct 0x5000#32 (by decide) [fiveBlocks]
      ((Ledger.mk (boot 0x5000#32 [fiveBlocks]) []).exec (.allocMultiBlock 2#32))
      ((Machine.Reaches.refl _).snoc (i := .allocMultiBlock 2#32) trivial rfl)).1.trans (by decide),
    by decide⟩

end Kerosene.Mem.Pmm
