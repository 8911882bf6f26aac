import Kerosene.Mem.PmmRun

/-!
# mem_init of kernel.c

The frame allocator is set up from the memory map of the bootloader. What it can hand out afterwards
is what the bitmap has free at that moment.
-/

namespace Kerosene.Mem
namespace Pmm
open Lib

/-! ## What an allocator hands out -/

/-- Only blocks that the callers hold are given back. -/
def Call.Owned (l : Ledger) : Call → Prop
  | .freeBlock addr => ∀ b ∈ releasedBlocks addr 1, ∃ run ∈ l.held, b ∈ run
  | .freeMultiBlock addr cnt => ∀ b ∈ releasedBlocks addr cnt.toNat, ∃ run ∈ l.held, b ∈ run
  | _ => True

def owners : Machine Ledger Call where
  Legal l call := call.Owned l
  step l call := some (l.exec call)

/-- All that is free now or held was free in `origin`. -/
structure Ledger.From (origin : Pmm) (l : Ledger) : Prop where
  sound : l.Sound
  total : l.pmm.totalBlock = origin.totalBlock
  free : ∀ b < origin.totalBlock.toNat, l.pmm.testBit b = false → origin.testBit b = false
  held : ∀ run ∈ l.held, ∀ b ∈ run, b < origin.totalBlock.toNat ∧ origin.testBit b = false

variable {origin : Pmm} {l m : Ledger}

theorem Ledger.From.handOut (kept : l.From origin) {cnt : Nat} {out : Word × Pmm} (alloc : l.pmm.Allocates cnt out) :
    (l.handOut cnt out).From origin := by
  have sound := kept.sound.handOut alloc
  by_cases refused : out.1 = 0
  · have same := alloc.keeps refused
    refine ⟨sound, ?_, ?_, ?_⟩
    · simpa [Ledger.handOut, same] using kept.total
    · simpa [Ledger.handOut, same] using kept.free
    · simpa [Ledger.handOut, refused] using kept.held
  · obtain ⟨i, -, addr, run, bits⟩ := alloc.takes refused
    have start : out.1.toNat / pageSize = i := by
      rw [addr]
      exact Nat.mul_div_cancel i (by decide)
    have inside := run.1
    rw [kept.total] at inside
    refine ⟨sound, alloc.total.trans kept.total, fun b low free => ?_, fun blocks member b here => ?_⟩
    · refine kept.free b low ?_
      have after : (l.pmm.testBit b || decide (i ≤ b ∧ b < i + cnt)) = false := (bits b).symm.trans free
      exact (Bool.or_eq_false_iff.mp after).1
    · simp only [Ledger.handOut, refused, if_false, List.mem_cons] at member
      rcases member with rfl | old
      · rw [mem_blocksOf, start] at here
        exact ⟨by omega, kept.free b (by omega) (run.not_of_used here.1 here.2)⟩
      · exact kept.held blocks old b here

theorem Ledger.From.takeBack (kept : l.From origin) {blocks : List Nat} {after : Pmm} (sound : (l.takeBack blocks after).Sound)
    (total : after.totalBlock = l.pmm.totalBlock)
    (bits : ∀ b < l.pmm.totalBlock.toNat, after.testBit b = (l.pmm.testBit b && !decide (b ∈ blocks)))
    (owned : ∀ b ∈ blocks, ∃ run ∈ l.held, b ∈ run) : (l.takeBack blocks after).From origin := by
  refine ⟨sound, total.trans kept.total, fun b low free => ?_, fun run member b here => ?_⟩
  · have after' := (bits b (by rwa [kept.total])).symm.trans free
    rcases Bool.and_eq_false_iff.mp after' with before | returned
    · exact kept.free b low before
    · obtain ⟨run, member, here⟩ := owned b (by simpa using returned)
      exact (kept.held run member b here).2
  · obtain ⟨old, oldMember, rfl⟩ := List.mem_map.mp member
    exact kept.held old oldMember b (List.mem_of_mem_filter here)

theorem exec_freeBlock (sound : l.Sound) {addr : Word} (owned : Call.Owned l (.freeBlock addr)) :
    l.exec (.freeBlock addr) = l.exec (.freeMultiBlock addr 1#32) := by
  have same : l.pmm.freeBlock addr = l.pmm.freeMultiBlock addr 1#32 := by
    unfold freeBlock freeMultiBlock
    dsimp only
    split_ifs with zero
    · rfl
    · obtain ⟨run, member, here⟩ := owned (addr.toNat / pageSize) (by simp [releasedBlocks, zero, blocksOf])
      have inside := (sound.inUse run member _ here).2.1
      rw [show (1#32).toNat = 1 from rfl, releaseFrom, if_neg (by omega), releaseFrom]
  rw [Ledger.exec, Ledger.exec, same, show (1#32).toNat = 1 from rfl]

theorem Ledger.From.exec (kept : l.From origin) {call : Call} (owned : call.Owned l) : (l.exec call).From origin := by
  have multi (addr cnt : Word) (owned : Call.Owned l (.freeMultiBlock addr cnt)) :
      (l.exec (.freeMultiBlock addr cnt)).From origin := by
    obtain ⟨pmm, total, bits⟩ := freeMultiBlock_spec kept.sound.pmm addr cnt
    have keeps : ∀ b < l.pmm.totalBlock.toNat, b ∉ releasedBlocks addr cnt.toNat → l.pmm.testBit b = true →
        (l.pmm.freeMultiBlock addr cnt).testBit b = true := by
      intro b low fresh used
      rw [bits b low, used, decide_eq_false fresh]
      rfl
    exact kept.takeBack (kept.sound.takeBack pmm total keeps) total bits owned
  cases call with
  | allocBlock => exact kept.handOut (allocBlock_spec kept.sound.pmm)
  | allocMultiBlock cnt => exact kept.handOut (allocMultiBlock_spec kept.sound.pmm cnt)
  | freeBlock addr =>
      rw [exec_freeBlock kept.sound owned]
      exact multi addr 1#32 owned
  | freeMultiBlock addr cnt => exact multi addr cnt owned

theorem from_of_reaches (sound : origin.Sound) (run : owners.Reaches ⟨origin, []⟩ l) : l.From origin := by
  refine run.invariant (I := Ledger.From origin) ?_ ⟨⟨sound, List.Pairwise.nil, by simp⟩, rfl, fun _ _ => id, by simp⟩
  rintro l call m kept owned ⟨⟩
  exact kept.exec owned

theorem reaches_of_free (sound : l.Sound) {b : Nat} (inside : b < l.pmm.totalBlock.toNat) (free : l.pmm.testBit b = false) :
    ∃ m, owners.Reaches l m ∧ ∃ run ∈ m.held, b ∈ run := by
  induction left : l.pmm.totalBlock.toNat - l.pmm.usedCount using Nat.strong_induction_on generalizing l with
  | _ n ih =>
      have alloc := allocBlock_spec sound.pmm
      have one : l.pmm.FreeRun b 1 := by
        refine ⟨inside, fun k small => ?_⟩
        obtain rfl : k = 0 := by omega
        exact free
      have taken : l.pmm.allocBlock.1 ≠ 0 := by
        intro refused
        rcases alloc.refuses.mp refused with none | none
        · exact absurd none Nat.one_ne_zero
        · exact none b one
      obtain ⟨i, -, addr, run, bits⟩ := alloc.takes taken
      have start : l.pmm.allocBlock.1.toNat / pageSize = i := by
        rw [addr]
        exact Nat.mul_div_cancel i (by decide)
      have sound' := sound.handOut alloc
      have step : owners.Next l (l.exec .allocBlock) := ⟨.allocBlock, trivial, rfl⟩
      by_cases here : b = i
      · refine ⟨l.exec .allocBlock, .single step, blocksOf l.pmm.allocBlock.1 1, ?_, ?_⟩
        · rw [Ledger.exec, Ledger.handOut, if_neg taken]
          exact List.mem_cons_self
        · rw [mem_blocksOf, start]
          omega
      · have counted : (l.exec .allocBlock).pmm.usedCount = l.pmm.usedCount + 1 := by
          rw [usedCount, show (l.exec .allocBlock).pmm.totalBlock = l.pmm.totalBlock from alloc.total]
          exact count_interval run.1 (fun c low high => by simp [run.not_of_used low high]) fun c => by
            simp [Ledger.exec, Ledger.handOut, bits]
        have room := run.used_add_le
        have total : (l.exec .allocBlock).pmm.totalBlock = l.pmm.totalBlock := alloc.total
        have still : (l.exec .allocBlock).pmm.testBit b = false := by
          rw [show (l.exec .allocBlock).pmm.testBit b = _ from bits b, free, Bool.false_or, decide_eq_false_iff_not]
          omega
        have fewer : (l.exec .allocBlock).pmm.totalBlock.toNat - (l.exec .allocBlock).pmm.usedCount < n := by
          rw [counted, total]
          omega
        obtain ⟨m, rest, held⟩ := ih _ fewer (l := l.exec .allocBlock) sound' (by rwa [total]) still rfl
        exact ⟨m, .head step rest, held⟩

theorem handed_out_iff (sound : origin.Sound) {b : Nat} :
    (∃ l, owners.Reaches ⟨origin, []⟩ l ∧ ∃ run ∈ l.held, b ∈ run) ↔
      b < origin.totalBlock.toNat ∧ origin.testBit b = false := by
  constructor
  · rintro ⟨l, run, blocks, member, here⟩
    exact (from_of_reaches sound run).held blocks member b here
  · rintro ⟨inside, free⟩
    exact reaches_of_free (l := ⟨origin, []⟩) ⟨sound, List.Pairwise.nil, by simp⟩ inside free

theorem unsetFrom_testBit (p : Pmm) (n s c : Nat) :
    (p.unsetFrom n s).testBit c = (p.testBit c && !decide (s ≤ c ∧ c < s + n)) := by
  induction n generalizing p s with
  | zero =>
      have : ¬ (s ≤ c ∧ c < s + 0) := by omega
      rw [unsetFrom, decide_eq_false this, Bool.not_false, Bool.and_true]
  | succ n ih =>
      rw [unsetFrom, ih, testBit_unsetBit, Bool.and_assoc]
      congr 1
      rw [← decide_not, ← decide_not, ← Bool.decide_and]
      congr 1
      apply propext
      omega

end Pmm

/-! ## The memory map -/

def multibootMemoryAvailable : Word := 1
def multibootMemoryAcpiReclaimable : Word := 3

structure MmapEntry where
  addr : BitVec 64
  len : BitVec 64
  type : Word

namespace MmapEntry

/-- `i` is positive for every entry but the first. -/
def passedOver (e : MmapEntry) (i : Nat) : Bool :=
  e.addr >>> 32 > 0 || e.len >>> 32 > 0 || (i > 0 && e.addr == 0)

def usable (e : MmapEntry) : Bool :=
  e.type == multibootMemoryAvailable || e.type == multibootMemoryAcpiReclaimable

end MmapEntry

/-- The first loop of `mem_init`, a 32-bit sum. -/
def detectMemory : (i : Nat) → List MmapEntry → Word → Word
  | _, [], memsize => memsize
  | i, e :: rest, memsize =>
      detectMemory (i + 1) rest (if e.passedOver i then memsize else memsize + e.len.setWidth 32)

def initRegions : (i : Nat) → List MmapEntry → Pmm → Pmm
  | _, [], p => p
  | i, e :: rest, p =>
      initRegions (i + 1) rest
        (if e.passedOver i then p
        else if !e.usable then p
        else p.initRegion (e.addr.setWidth 32) (e.len.setWidth 32))

-- the loops advance by whole entries; `vmmngr_init` only sets the current directory
def memInit (entries : List MmapEntry) : Pmm :=
  let p := initRegions 0 entries (Pmm.init (detectMemory 0 entries 0))
  (p.deinitRegion 0 (4 * 1024 * 1024)).updateUsage

namespace MmapEntry

def Covers (e : MmapEntry) (x : Nat) : Prop := e.addr.toNat ≤ x ∧ x < e.addr.toNat + e.len.toNat

def Disjoint (e e' : MmapEntry) : Prop := ∀ x, e.Covers x → ¬ e'.Covers x

instance : Std.Symm Disjoint := ⟨fun _ _ apart x left right => apart x right left⟩

/-- The blocks that `mem_init` makes free for the entry. -/
def Opens (e : MmapEntry) (i b : Nat) : Prop :=
  e.passedOver i = false ∧ e.usable = true ∧ e.addr.toNat / pageSize ≤ b ∧
    b < e.addr.toNat / pageSize + e.len.toNat / pageSize

end MmapEntry

/-- An entry of a part of the map, which starts with entry `i`, makes block `b` free. -/
def Opened (i : Nat) (entries : List MmapEntry) (b : Nat) : Prop :=
  ∃ (j : Nat) (e : MmapEntry), entries[j]? = some e ∧ e.Opens (i + j) b

/-- The length of the entries that count as memory. -/
def countedMemory : (i : Nat) → List MmapEntry → Nat
  | _, [] => 0
  | i, e :: rest => (if e.passedOver i then 0 else e.len.toNat) + countedMemory (i + 1) rest

variable {e : MmapEntry} {entries : List MmapEntry} {i : Nat}

theorem setWidth_of_small {x : BitVec 64} (small : ¬ x >>> 32 > 0) : (x.setWidth 32).toNat = x.toNat := by
  rw [gt_iff_lt, BitVec.lt_def, BitVec.toNat_ushiftRight, Nat.shiftRight_eq_div_pow] at small
  have zero : (0 : BitVec 64).toNat = 0 := rfl
  rw [BitVec.toNat_setWidth, Nat.mod_eq_of_lt]
  omega

theorem MmapEntry.small (here : e.passedOver i = false) :
    (e.addr.setWidth 32).toNat = e.addr.toNat ∧ (e.len.setWidth 32).toNat = e.len.toNat := by
  simp only [passedOver, Bool.or_eq_false_iff, decide_eq_false_iff_not] at here
  exact ⟨setWidth_of_small here.1.1, setWidth_of_small here.1.2⟩

theorem detectMemory_toNat (memsize : Word) :
    (detectMemory i entries memsize).toNat = (memsize.toNat + countedMemory i entries) % 2 ^ 32 := by
  induction entries generalizing i memsize with
  | nil =>
      have := memsize.isLt
      rw [detectMemory, countedMemory]
      omega
  | cons e rest ih =>
      rw [detectMemory, countedMemory, ih]
      split_ifs with passed
      · omega
      · rw [BitVec.toNat_add, (MmapEntry.small (Bool.eq_false_iff.mpr passed)).2]
        omega

theorem initRegions_total (p : Pmm) : (initRegions i entries p).totalBlock = p.totalBlock := by
  induction entries generalizing i p with
  | nil => rfl
  | cons e rest ih =>
      rw [initRegions, ih]
      split_ifs
      · rfl
      · rfl
      · exact Pmm.unsetFrom_spec p _ _

theorem opened_cons {rest : List MmapEntry} {b : Nat} : Opened i (e :: rest) b ↔ e.Opens i b ∨ Opened (i + 1) rest b := by
  constructor
  · rintro ⟨j, e', here, opens⟩
    cases j with
    | zero =>
        cases here
        exact .inl opens
    | succ j => exact .inr ⟨j, e', here, by rwa [show i + 1 + j = i + (j + 1) by omega]⟩
  · rintro (opens | ⟨j, e', here, opens⟩)
    · exact ⟨0, e, rfl, opens⟩
    · exact ⟨j + 1, e', here, by rwa [show i + (j + 1) = i + 1 + j by omega]⟩

theorem initRegion_testBit {p : Pmm} (counts : e.passedOver i = false) (usable : e.usable = true) (b : Nat) :
    (p.initRegion (e.addr.setWidth 32) (e.len.setWidth 32)).testBit b = false ↔
      b ≠ 0 ∧ (p.testBit b = false ∨ e.Opens i b) := by
  obtain ⟨addr, len⟩ := MmapEntry.small counts
  rw [Pmm.initRegion, Pmm.testBit_setBit, Pmm.unsetFrom_testBit, addr, len, MmapEntry.Opens, counts, usable]
  simp only [true_and, Bool.or_eq_false_iff, Bool.and_eq_false_iff, Bool.not_eq_false', decide_eq_true_eq,
    decide_eq_false_iff_not]
  exact and_comm

theorem initRegions_testBit {p : Pmm} (zero : p.testBit 0 = true) (b : Nat) :
    (initRegions i entries p).testBit b = false ↔ b ≠ 0 ∧ (p.testBit b = false ∨ Opened i entries b) := by
  induction entries generalizing i p with
  | nil =>
      rw [initRegions]
      constructor
      · intro free
        refine ⟨?_, .inl free⟩
        rintro rfl
        rw [zero] at free
        cases free
      · rintro ⟨-, free | ⟨j, e, here, -⟩⟩
        · exact free
        · simp at here
  | cons e rest ih =>
      rw [initRegions, opened_cons]
      split_ifs with passed other
      · have closed : ¬ e.Opens i b := fun opens => by simp [opens.1] at passed
        rw [ih zero, or_iff_right closed]
      · have closed : ¬ e.Opens i b := fun opens => by simp [opens.2.1] at other
        rw [ih zero, or_iff_right closed]
      · have bits := initRegion_testBit (p := p) (Bool.eq_false_iff.mpr passed) (show e.usable = true by simpa using other)
        have zero' : (p.initRegion (e.addr.setWidth 32) (e.len.setWidth 32)).testBit 0 = true := by
          rw [Pmm.initRegion, Pmm.testBit_setBit, decide_eq_true rfl, Bool.or_true]
        rw [ih zero', bits b, ← or_assoc]
        constructor
        · rintro ⟨nonzero, free | later⟩
          · exact ⟨nonzero, .inl free.2⟩
          · exact ⟨nonzero, .inr later⟩
        · rintro ⟨nonzero, free | later⟩
          · exact ⟨nonzero, .inl ⟨nonzero, free⟩⟩
          · exact ⟨nonzero, .inr later⟩

theorem init_testBit (size : Word) (b : Nat) : (Pmm.init size).testBit b = true := by
  rw [Pmm.testBit_eq, Pmm.init, show (0xffffffff#32) = BitVec.allOnes 32 from rfl, BitVec.getLsbD_allOnes]
  exact decide_eq_true (Nat.mod_lt b (by decide))

theorem deinitRegion_kernel (p : Pmm) : p.deinitRegion 0 (4 * 1024 * 1024) = p.setFrom 1024 0 := by
  rw [Pmm.deinitRegion, show (4 * 1024 * 1024 : Word).toNat / pageSize = 1024 by decide,
    show (0 : Word).toNat / pageSize = 0 by decide]

theorem memInit_testBit (b : Nat) : (memInit entries).testBit b = false ↔ 1024 ≤ b ∧ Opened 0 entries b := by
  have bits := (Pmm.setFrom_spec (initRegions 0 entries (Pmm.init (detectMemory 0 entries 0))) 1024 0).2 b
  have opened : (initRegions 0 entries (Pmm.init (detectMemory 0 entries 0))).testBit b = false ↔ _ :=
    initRegions_testBit (init_testBit (detectMemory 0 entries 0) 0) b
  rw [init_testBit, Bool.true_eq_false, false_or] at opened
  rw [memInit, deinitRegion_kernel, Pmm.updateUsage, Pmm.testBit_withUsed, bits, Bool.or_eq_false_iff, opened, decide_eq_false_iff_not]
  constructor
  · rintro ⟨⟨-, found⟩, high⟩
    exact ⟨by omega, found⟩
  · rintro ⟨high, found⟩
    exact ⟨⟨by omega, found⟩, by omega⟩

theorem memInit_total (fits : countedMemory 0 entries < 2 ^ 32) :
    (memInit entries).totalBlock.toNat = countedMemory 0 entries / pageSize := by
  have same : (memInit entries).totalBlock = (Pmm.init (detectMemory 0 entries 0)).totalBlock := by
    rw [memInit, deinitRegion_kernel, Pmm.updateUsage, Pmm.totalBlock_withUsed, (Pmm.setFrom_spec _ 1024 0).1,
      initRegions_total]
  have detected : (detectMemory 0 entries 0).toNat = _ := detectMemory_toNat 0
  rw [show (0 : Word).toNat = 0 from rfl, Nat.zero_add, Nat.mod_eq_of_lt fits] at detected
  rw [same, Pmm.init, BitVec.toNat_ofNat, detected, pageSize, Nat.mod_eq_of_lt (by omega)]

/-! ## Maps of disjoint entries below 3 GiB -/

theorem countedMemory_le : countedMemory i entries ≤ (entries.map fun e => e.len.toNat).sum := by
  induction entries generalizing i with
  | nil => exact Nat.le_refl 0
  | cons e rest ih =>
      rw [countedMemory, List.map_cons, List.sum_cons]
      have := ih (i := i + 1)
      split_ifs
      · omega
      · omega

theorem sum_len_le {limit : Nat} (disjoint : entries.Pairwise MmapEntry.Disjoint)
    (below : ∀ e ∈ entries, e.addr.toNat + e.len.toNat ≤ limit) : (entries.map fun e => e.len.toNat).sum ≤ limit := by
  have bytes (e : MmapEntry) (x : Nat) : x ∈ List.range' e.addr.toNat e.len.toNat ↔ e.Covers x := by
    rw [List.mem_range'_1, MmapEntry.Covers]
  have nodup : (entries.flatMap fun e => List.range' e.addr.toNat e.len.toNat).Nodup := by
    refine List.nodup_flatMap.mpr ⟨fun e _ => List.nodup_range', disjoint.imp fun apart x left right => ?_⟩
    exact apart x ((bytes _ x).mp left) ((bytes _ x).mp right)
  have inside : (entries.flatMap fun e => List.range' e.addr.toNat e.len.toNat) ⊆ List.range limit := by
    intro x member
    obtain ⟨e, entry, here⟩ := List.mem_flatMap.mp member
    have := ((bytes e x).mp here).2
    have := below e entry
    exact List.mem_range.mpr (by omega)
  have length := (nodup.subperm inside).length_le
  rw [List.length_flatMap, List.length_range] at length
  simpa using length

/-- A block that may be handed out. -/
def UsableBlock (entries : List MmapEntry) (b : Nat) : Prop :=
  4 * 1024 * 1024 ≤ b * pageSize ∧
    ∃ e ∈ entries, e.usable = true ∧ e.addr.toNat ≤ b * pageSize ∧ (b + 1) * pageSize ≤ e.addr.toNat + e.len.toNat

section
variable (disjoint : entries.Pairwise MmapEntry.Disjoint) (below : ∀ e ∈ entries, e.addr.toNat + e.len.toNat ≤ 3 * 2 ^ 30)
include disjoint below

theorem countedMemory_small : countedMemory 0 entries ≤ 3 * 2 ^ 30 :=
  countedMemory_le.trans (sum_len_le disjoint below)

theorem memInit_sound : (memInit entries).Sound := by
  have small := countedMemory_small disjoint below
  refine ⟨?_, ?_, ?_⟩
  · rw [memInit, deinitRegion_kernel, Pmm.updateUsage_used, Pmm.updateUsage, Pmm.usedCount_withUsed]
    rw [(Pmm.setFrom_spec _ 1024 0).1, initRegions_total]
    exact (Pmm.init_totalBlock_lt _).trans (by decide)
  · rw [memInit_total (by omega), bitmapWords, pageSize]
    omega
  · rw [← Bool.not_eq_false]
    intro free
    have := ((memInit_testBit 0).mp free).1
    omega

theorem held_after_memInit {b : Nat} :
    (∃ l, Pmm.owners.Reaches ⟨memInit entries, []⟩ l ∧ ∃ run ∈ l.held, b ∈ run) ↔
      b < countedMemory 0 entries / pageSize ∧ 1024 ≤ b ∧ Opened 0 entries b := by
  have small := countedMemory_small disjoint below
  rw [Pmm.handed_out_iff (memInit_sound disjoint below), memInit_total (by omega), memInit_testBit]

/-- Only the head of an entry that does not start on a page boundary can reach out of it. -/
theorem memInit_hands_out_usable_iff :
    (∀ l, Pmm.owners.Reaches ⟨memInit entries, []⟩ l → ∀ run ∈ l.held, ∀ b ∈ run, UsableBlock entries b) ↔
      ∀ (i : Nat) (e : MmapEntry), entries[i]? = some e → e.passedOver i = false → e.usable = true →
        pageSize ≤ e.len.toNat → e.addr.toNat % pageSize ≠ 0 →
          e.addr.toNat / pageSize < 1024 ∨ countedMemory 0 entries / pageSize ≤ e.addr.toNat / pageSize := by
  constructor
  · intro all i e here counts usable long unaligned
    by_contra inside
    rw [not_or, not_lt, not_le] at inside
    have opens : e.Opens (0 + i) (e.addr.toNat / pageSize) := by
      rw [Nat.zero_add]
      refine ⟨counts, usable, Nat.le_refl _, Nat.lt_add_of_pos_right ?_⟩
      exact Nat.div_pos long (by decide)
    obtain ⟨l, run, blocks, member, held⟩ := (held_after_memInit disjoint below).mpr ⟨inside.2, inside.1, i, e, here, opens⟩
    obtain ⟨-, e', entry, -, low, high⟩ := all l run blocks member _ held
    rw [pageSize] at low high long unaligned
    have other : e ≠ e' := by
      rintro rfl
      omega
    have apart := disjoint.forall (List.mem_of_getElem? here) entry other
    exact apart e.addr.toNat ⟨Nat.le_refl _, by omega⟩ ⟨by omega, by omega⟩
  · intro heads l run blocks member b held
    obtain ⟨inside, high, i, e, here, counts, usable, first, last⟩ :=
      (held_after_memInit disjoint below).mp ⟨l, run, blocks, member, held⟩
    rw [Nat.zero_add] at counts
    have aligned : b = e.addr.toNat / pageSize → e.addr.toNat % pageSize = 0 := by
      intro head
      by_contra unaligned
      have long : pageSize ≤ e.len.toNat := by
        rw [pageSize] at first last ⊢
        omega
      rcases heads i e here counts usable long unaligned with low | past
      · omega
      · omega
    rw [pageSize] at aligned first last
    refine ⟨?_, e, List.mem_of_getElem? here, usable, ?_, ?_⟩
    all_goals
      rw [pageSize]
      omega

end

/-- Low memory, and extended memory from 1 MiB on. -/
def alignedMap : List MmapEntry :=
  [⟨0, 0x9fc00, multibootMemoryAvailable⟩, ⟨0x100000, 0x700000, multibootMemoryAvailable⟩]

theorem memInit_hands_out_usable_aligned :
    ∃ l, Pmm.owners.Reaches ⟨memInit alignedMap, []⟩ l ∧ (∃ run ∈ l.held, 1024 ∈ run) ∧ UsableBlock alignedMap 1024 := by
  have disjoint : alignedMap.Pairwise MmapEntry.Disjoint := by
    simp only [alignedMap, List.pairwise_cons, List.mem_singleton, forall_eq, List.not_mem_nil, false_implies,
      implies_true, List.Pairwise.nil, and_true]
    rintro x ⟨-, left⟩ ⟨right, -⟩
    exact absurd (right.trans_lt left) (by decide)
  have below : ∀ e ∈ alignedMap, e.addr.toNat + e.len.toNat ≤ 3 * 2 ^ 30 := by decide
  obtain ⟨l, run, blocks, member, held⟩ := (held_after_memInit (b := 1024) disjoint below).mpr
    ⟨by decide, by decide, 1, _, rfl, rfl, rfl, by decide, by decide⟩
  refine ⟨l, run, ⟨blocks, member, held⟩, (memInit_hands_out_usable_iff disjoint below).mpr ?_ l run blocks member 1024 held⟩
  intro i e here counts usable long unaligned
  match i with
  | 0 => cases here; exact absurd rfl unaligned
  | 1 => cases here; exact absurd rfl unaligned
  | i + 2 => cases here

/-- The last entry starts in the middle of block 1024. -/
def unalignedMap : List MmapEntry :=
  [⟨0, 0x9fc00, multibootMemoryAvailable⟩, ⟨0x9fc00, 0x360c00, 2⟩, ⟨0x400800, 0x100000, multibootMemoryAvailable⟩]

theorem memInit_hands_out_reserved :
    ¬ ∀ entries : List MmapEntry, entries.Pairwise MmapEntry.Disjoint →
      (∀ e ∈ entries, e.addr.toNat + e.len.toNat ≤ 3 * 2 ^ 30) →
      ∀ l, Pmm.owners.Reaches ⟨memInit entries, []⟩ l → ∀ run ∈ l.held, ∀ b ∈ run, UsableBlock entries b := by
  intro all
  have apart {e e' : MmapEntry} (after : e.addr.toNat + e.len.toNat ≤ e'.addr.toNat) : e.Disjoint e' := by
    rintro x ⟨-, left⟩ ⟨right, -⟩
    omega
  have disjoint : unalignedMap.Pairwise MmapEntry.Disjoint := by
    refine .cons ?_ (.cons ?_ (.cons (by simp) .nil))
    · simp only [List.mem_cons, List.not_mem_nil, or_false, forall_eq_or_imp, forall_eq]
      exact ⟨apart (by decide), apart (by decide)⟩
    · simp only [List.mem_cons, List.not_mem_nil, or_false, forall_eq]
      exact apart (by decide)
  have below : ∀ e ∈ unalignedMap, e.addr.toNat + e.len.toNat ≤ 3 * 2 ^ 30 := by decide
  obtain ⟨l, run, blocks, member, held⟩ := (held_after_memInit (b := 1024) disjoint below).mpr
    ⟨by decide, by decide, 2, _, rfl, rfl, rfl, by decide, by decide⟩
  obtain ⟨-, e, entry, usable, low, high⟩ := all unalignedMap disjoint below l run blocks member 1024 held
  simp only [unalignedMap, List.mem_cons, List.not_mem_nil, or_false] at entry
  rcases entry with rfl | rfl | rfl
  · exact absurd high (by decide)
  · exact absurd usable (by decide)
  · exact absurd low (by decide)

end Kerosene.Mem
