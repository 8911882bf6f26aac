import Kerosene.Mem.Directories

/-!
# Frames handed out since a given moment

The bitmap is what it was at the start, with the bits of the frames that were handed out and not
given back.
-/

namespace Kerosene.Mem
open Lib Spaces

theorem aligned_iff (frame : Word) : Aligned frame ↔ frame.toNat % pageSize = 0 := by
  rw [Aligned, ← BitVec.toNat_inj, BitVec.toNat_and, show (0xfff#32).toNat = 2 ^ 12 - 1 from rfl,
    Nat.and_two_pow_sub_one_eq_mod]
  rfl

theorem Aligned.toNat {frame : Word} (aligned : Aligned frame) : frame.toNat = blockOf frame * pageSize := by
  rw [aligned_iff] at aligned
  exact (Nat.div_mul_cancel (Nat.dvd_of_mod_eq_zero aligned)).symm

theorem Aligned.eq_of_block {f g : Word} (left : Aligned f) (right : Aligned g) (same : blockOf f = blockOf g) : f = g := by
  apply BitVec.eq_of_toNat_eq
  rw [left.toNat, right.toNat, same]

/-- The frames of a run of `cnt` blocks at `addr`. -/
def framesFrom (addr : Word) (cnt : Nat) : List Word :=
  (List.range cnt).map fun i => addr + BitVec.ofNat 32 (i * pageSize)

namespace Pmm

structure HandedOut (start : Pmm) (held : List Word) (p : Pmm) : Prop where
  sound : p.Sound
  total : p.totalBlock = start.totalBlock
  nodup : held.Nodup
  aligned : ∀ f ∈ held, Aligned f
  nonzero : ∀ f ∈ held, f ≠ 0#32
  inside : ∀ f ∈ held, blockOf f < start.totalBlock.toNat
  fresh : ∀ f ∈ held, start.testBit (blockOf f) = false
  bits : ∀ b, p.testBit b = true ↔ start.testBit b = true ∨ b ∈ held.map blockOf

variable {start p : Pmm} {held : List Word}

theorem HandedOut.nothing (sound : start.Sound) : start.HandedOut [] start where
  sound := sound
  total := rfl
  nodup := List.nodup_nil
  aligned := by simp
  nonzero := by simp
  inside := by simp
  fresh := by simp
  bits := by simp

theorem HandedOut.perm (accounts : start.HandedOut held p) {other : List Word} (same : held.Perm other) :
    start.HandedOut other p where
  sound := accounts.sound
  total := accounts.total
  nodup := same.nodup_iff.mp accounts.nodup
  aligned f member := accounts.aligned f (same.mem_iff.mpr member)
  nonzero f member := accounts.nonzero f (same.mem_iff.mpr member)
  inside f member := accounts.inside f (same.mem_iff.mpr member)
  fresh f member := accounts.fresh f (same.mem_iff.mpr member)
  bits b := by rw [accounts.bits, (same.map blockOf).mem_iff]

theorem HandedOut.used_bit (accounts : start.HandedOut held p) {f : Word} (member : f ∈ held) :
    p.testBit (blockOf f) = true :=
  (accounts.bits _).mpr (.inr (List.mem_map_of_mem member))

theorem HandedOut.blocks_nodup (accounts : start.HandedOut held p) : (held.map blockOf).Nodup :=
  accounts.nodup.map_on fun _ left _ right => (accounts.aligned _ left).eq_of_block (accounts.aligned _ right)

theorem HandedOut.used (accounts : start.HandedOut held p) (sound : start.Sound) :
    p.usedBlock.toNat = start.usedBlock.toNat + held.length := by
  have counted := count_list (p := fun b => start.testBit b = true) (q := fun b => p.testBit b = true)
    (n := start.totalBlock.toNat) accounts.blocks_nodup ?_ ?_ accounts.bits
  · rw [List.length_map] at counted
    rw [accounts.sound.used, sound.used, usedCount, usedCount, accounts.total]
    exact counted
  all_goals
    intro b member
    obtain ⟨f, inHeld, rfl⟩ := List.mem_map.mp member
  · exact accounts.inside f inHeld
  · rw [accounts.fresh f inHeld]
    exact Bool.false_ne_true

theorem HandedOut.eq_start (accounts : start.HandedOut [] p) (sound : start.Sound) : p = start := by
  have used : p.usedBlock = start.usedBlock := BitVec.eq_of_toNat_eq (accounts.used sound)
  have bits : ∀ b, p.testBit b = start.testBit b := by
    intro b
    rw [Bool.eq_iff_iff, accounts.bits]
    simp
  have bitmap : p.bitmap = start.bitmap := by
    funext i
    apply BitVec.eq_of_getLsbD_eq
    intro j inside
    have bit := bits (i * 32 + j)
    rwa [testBit_eq, testBit_eq, show (i * 32 + j) / 32 = i by omega, show (i * 32 + j) % 32 = j by omega] at bit
  calc p = ⟨p.bitmap, p.usedBlock, p.totalBlock⟩ := rfl
    _ = ⟨start.bitmap, start.usedBlock, start.totalBlock⟩ := by rw [bitmap, used, accounts.total]

/-! ## Taking frames -/

theorem framesFrom_spec {addr : Word} {cnt i : Nat} (start : addr.toNat = i * pageSize)
    (fits : i + cnt ≤ bitmapWords * 32) : ∀ f ∈ framesFrom addr cnt, Aligned f ∧ i ≤ blockOf f ∧ blockOf f < i + cnt := by
  intro f member
  obtain ⟨k, below, rfl⟩ := List.mem_map.mp member
  rw [List.mem_range] at below
  simp only [bitmapWords] at fits
  have value : (addr + BitVec.ofNat 32 (k * pageSize)).toNat = (i + k) * pageSize := by
    rw [BitVec.toNat_add, BitVec.toNat_ofNat, start]
    simp only [pageSize]
    omega
  have block : blockOf (addr + BitVec.ofNat 32 (k * pageSize)) = i + k := by
    rw [blockOf, value]
    exact Nat.mul_div_cancel _ (by decide)
  refine ⟨?_, by omega, by omega⟩
  rw [aligned_iff, value]
  exact Nat.mul_mod_left _ _

theorem mem_blocks_framesFrom {addr : Word} {cnt i b : Nat} (start : addr.toNat = i * pageSize)
    (fits : i + cnt ≤ bitmapWords * 32) : b ∈ (framesFrom addr cnt).map blockOf ↔ i ≤ b ∧ b < i + cnt := by
  constructor
  · intro member
    obtain ⟨f, inFrames, rfl⟩ := List.mem_map.mp member
    exact (framesFrom_spec start fits f inFrames).2
  · rintro ⟨low, high⟩
    simp only [bitmapWords] at fits
    refine List.mem_map.mpr ⟨_, List.mem_map_of_mem (List.mem_range.mpr (show b - i < cnt by omega)), ?_⟩
    rw [blockOf, BitVec.toNat_add, BitVec.toNat_ofNat, start]
    simp only [pageSize]
    omega

theorem framesFrom_nodup {addr : Word} {cnt i : Nat} (start : addr.toNat = i * pageSize)
    (fits : i + cnt ≤ bitmapWords * 32) : (framesFrom addr cnt).Nodup := by
  refine List.nodup_range.map_on fun k below l under same => ?_
  rw [List.mem_range] at below under
  have values := congrArg BitVec.toNat same
  rw [BitVec.toNat_add, BitVec.toNat_ofNat, BitVec.toNat_add, BitVec.toNat_ofNat, start] at values
  simp only [bitmapWords, pageSize] at fits values
  omega

theorem HandedOut.take (accounts : start.HandedOut held p) {cnt : Nat} {out : Word × Pmm} (alloc : p.Allocates cnt out)
    (found : out.1 ≠ 0#32) : start.HandedOut (framesFrom out.1 cnt ++ held) out.2 := by
  obtain ⟨i, nonzero, addr, run, bits⟩ := alloc.takes found
  have bound := run.1
  have fits : i + cnt ≤ bitmapWords * 32 := Nat.le_trans run.1 accounts.sound.fits
  have new := framesFrom_spec addr fits
  have free : ∀ f ∈ framesFrom out.1 cnt, p.testBit (blockOf f) = false := fun f member =>
    run.not_of_used (new f member).2.1 (new f member).2.2
  refine ⟨alloc.sound, alloc.total.trans accounts.total, ?_, ?_, ?_, ?_, ?_, fun b => ?_⟩
  · refine (framesFrom_nodup addr fits).append accounts.nodup fun f inNew inHeld => ?_
    have used := accounts.used_bit inHeld
    rw [free f inNew] at used
    cases used
  · intro f member
    rcases List.mem_append.mp member with inNew | inHeld
    · exact (new f inNew).1
    · exact accounts.aligned f inHeld
  · intro f member
    rcases List.mem_append.mp member with inNew | inHeld
    · rintro rfl
      have block := (new _ inNew).2.1
      have zero : blockOf 0#32 = 0 := rfl
      omega
    · exact accounts.nonzero f inHeld
  · intro f member
    rcases List.mem_append.mp member with inNew | inHeld
    · rw [← accounts.total]
      have := (new f inNew).2.2
      omega
    · exact accounts.inside f inHeld
  · intro f member
    rcases List.mem_append.mp member with inNew | inHeld
    · cases old : start.testBit (blockOf f) with
      | false => rfl
      | true => rw [← free f inNew, (accounts.bits _).mpr (.inl old)]
    · exact accounts.fresh f inHeld
  · rw [List.map_append, List.mem_append, mem_blocks_framesFrom addr fits, bits, Bool.or_eq_true, decide_eq_true_eq,
      accounts.bits]
    tauto

theorem Allocates.used {p : Pmm} {cnt : Nat} {out : Word × Pmm} (sound : p.Sound) (alloc : p.Allocates cnt out)
    (found : out.1 ≠ 0#32) : out.2.usedBlock.toNat = p.usedBlock.toNat + cnt := by
  have taken := (HandedOut.nothing sound).take alloc found
  rw [taken.used sound, List.append_nil, framesFrom, List.length_map, List.length_range]

/-! ## Giving frames back -/

theorem HandedOut.give (accounts : start.HandedOut held p) {f : Word} {rest : List Word} (member : held.Perm (f :: rest)) :
    start.HandedOut rest (p.freeBlock f) := by
  have listed := accounts.perm member
  have inside : f.toNat < p.totalBlock.toNat * pageSize := by
    rw [(listed.aligned f List.mem_cons_self).toNat, accounts.total]
    exact (Nat.mul_lt_mul_right (by decide)).mpr (listed.inside f List.mem_cons_self)
  have released : releasedBlocks f 1 = [blockOf f] := by
    have nonzero : f.toNat / pageSize ≠ 0 := by
      intro zero
      apply listed.nonzero f List.mem_cons_self
      apply BitVec.eq_of_toNat_eq
      rw [(listed.aligned f List.mem_cons_self).toNat, blockOf, zero]
      rfl
    rw [releasedBlocks, if_neg nonzero]
    rfl
  obtain ⟨sound, total, bits⟩ := freeBlock_spec accounts.sound f inside
  rw [released] at bits
  refine ⟨sound, total.trans accounts.total, listed.nodup.of_cons, fun g inRest => listed.aligned g (.tail _ inRest),
    fun g inRest => listed.nonzero g (.tail _ inRest), fun g inRest => listed.inside g (.tail _ inRest),
    fun g inRest => listed.fresh g (.tail _ inRest), fun b => ?_⟩
  have blocks := listed.blocks_nodup
  rw [List.map_cons, List.nodup_cons] at blocks
  have notStart := listed.fresh f List.mem_cons_self
  rw [bits, Bool.and_eq_true, listed.bits, List.map_cons, List.mem_cons]
  by_cases here : b = blockOf f
  · subst here
    simp [notStart, blocks.1]
  · simp [here]

theorem HandedOut.giveAll {gone rest : List Word} (accounts : start.HandedOut held p) (split : held.Perm (gone ++ rest)) :
    start.HandedOut rest (gone.foldl freeBlock p) := by
  induction gone generalizing p held with
  | nil => exact accounts.perm split
  | cons f gone ih => exact ih (accounts.give split) (List.Perm.refl _)

end Pmm
end Kerosene.Mem
