import Kerosene.Elf.Isolation

/-!
# The pages that a load maps

They reach from the lowest start to the end of the segment that starts highest, of those that start there the last.
-/

namespace Kerosene.Elf
open Mem

/-- The `i`th header is that of a loadable segment, and inside what can be read. -/
structure IsSegment (image : Image) (phtab : Word) (i : Nat) (vaddr fileSize memSize : Word) : Prop where
  load : phField image phtab i 0#32 = some elfPtLoad
  vaddr : phField image phtab i 8#32 = some vaddr
  fileSize : phField image phtab i 16#32 = some fileSize
  memSize : phField image phtab i 20#32 = some memSize

variable {image : Image} {phtab v f m v' f' m' : Word} {i j k n : Nat} {plan : Plan} {b b' : Bounds}

theorem IsSegment.unique (segment : IsSegment image phtab i v f m) (segment' : IsSegment image phtab i v' f' m') :
    v = v' ∧ f = f' ∧ m = m' :=
  ⟨Option.some.inj (segment.vaddr.symm.trans segment'.vaddr), Option.some.inj (segment.fileSize.symm.trans segment'.fileSize),
    Option.some.inj (segment.memSize.symm.trans segment'.memSize)⟩

/-- The segments of the image end below the kernel and are not longer in the file than in memory. -/
def Plan.WellFormed (plan : Plan) (image : Image) : Prop :=
  ∀ i < plan.count, phField image plan.phtab i 0#32 = some elfPtLoad →
    ∃ v f m, IsSegment image plan.phtab i v f m ∧ v.toNat + m.toNat < kernelStart.toNat ∧ f ≤ m

-- the bytes that the loops of the copy store to
def Plan.Stores (plan : Plan) (image : Image) (addr : Word) : Prop :=
  ∃ i < plan.count, ∃ v f m, IsSegment image plan.phtab i v f m ∧ ∃ j, (j < f.toNat ∨ j < m.toNat) ∧ addr = v + BitVec.ofNat 32 j

def Plan.Maps (plan : Plan) (addr : Word) : Prop :=
  plan.minaddr.toNat ≤ addr.toNat ∧ addr.toNat < plan.minaddr.toNat + plan.requiredPages.toNat * 4096

/-- Of the segments of the first `n` headers the `k`th starts highest, and those behind it start lower. -/
def StartsLast (image : Image) (phtab : Word) (n k : Nat) (v f m : Word) : Prop :=
  k < n ∧ IsSegment image phtab k v f m ∧
    ∀ i < n, ∀ v' f' m', IsSegment image phtab i v' f' m' → v' ≤ v ∧ (k < i → v' < v)

/-- No segment ends above the page in which the last of those that start highest ends. -/
def Plan.EndsLast (plan : Plan) (image : Image) : Prop :=
  ∀ k v f m, StartsLast image plan.phtab plan.count k v f m → ∀ i < plan.count, ∀ v' f' m', IsSegment image plan.phtab i v' f' m' →
    v'.toNat + m'.toNat ≤ (v.toNat + m.toNat + 4095) / 4096 * 4096

/-! ## The search for the bounds -/

/-- What the search knows of the first `n` headers. -/
structure Bounds.Of (b : Bounds) (image : Image) (phtab : Word) (n : Nat) : Prop where
  least : ∀ i < n, ∀ v f m, IsSegment image phtab i v f m → b.minaddr ≤ v
  most : (∀ i < n, phField image phtab i 0#32 ≠ some elfPtLoad) ∧ b.maxaddr = 0#32 ∨
    ∃ k f, StartsLast image phtab n k b.maxaddr f b.lastSegmentSize ∧ b.minaddr ≤ b.maxaddr

theorem Bounds.Of.skip (known : b.Of image phtab j) (other : phField image phtab j 0#32 ≠ some elfPtLoad) : b.Of image phtab (j + 1) := by
  have earlier : ∀ {i v f m}, i < j + 1 → IsSegment image phtab i v f m → i < j := by
    intro i v f m inside segment
    refine (Nat.lt_succ_iff_lt_or_eq.mp inside).resolve_right ?_
    rintro rfl
    exact other segment.load
  refine ⟨fun i inside v f m segment => known.least i (earlier inside segment) v f m segment, ?_⟩
  rcases known.most with ⟨none, zero⟩ | ⟨k, f, ⟨below, segment, later⟩, order⟩
  · refine .inl ⟨fun i inside => ?_, zero⟩
    rcases Nat.lt_succ_iff_lt_or_eq.mp inside with less | rfl
    · exact none i less
    · exact other
  · exact .inr ⟨k, f, ⟨Nat.lt_succ_of_lt below, segment, fun i inside v' f' m' here =>
      later i (earlier inside here) v' f' m' here⟩, order⟩

theorem Bounds.Of.segment (known : b.Of image phtab j) (here : IsSegment image phtab j v f m) {low : Word}
    (lowest : low ≤ b.minaddr ∧ low ≤ v) :
    (v ≥ b.maxaddr → (⟨low, v, m⟩ : Bounds).Of image phtab (j + 1)) ∧
      (¬ v ≥ b.maxaddr → (⟨low, b.maxaddr, b.lastSegmentSize⟩ : Bounds).Of image phtab (j + 1)) := by
  have least : ∀ i < j + 1, ∀ v' f' m', IsSegment image phtab i v' f' m' → low ≤ v' := by
    intro i inside v' f' m' segment
    rcases Nat.lt_succ_iff_lt_or_eq.mp inside with less | rfl
    · exact BitVec.le_trans lowest.1 (known.least i less v' f' m' segment)
    · rw [← (here.unique segment).1]
      exact lowest.2
  refine ⟨fun high => ⟨least, .inr ⟨j, f, ⟨Nat.lt_succ_self j, here, fun i inside v' f' m' segment => ?_⟩, lowest.2⟩⟩,
    fun low' => ⟨least, .inr ?_⟩⟩
  · rcases Nat.lt_succ_iff_lt_or_eq.mp inside with less | rfl
    · refine ⟨?_, fun behind => absurd behind (Nat.lt_asymm less)⟩
      rcases known.most with ⟨none, -⟩ | ⟨k, f'', ⟨-, -, later⟩, -⟩
      · exact absurd segment.load (none i less)
      · exact BitVec.le_trans (later i less v' f' m' segment).1 high
    · rw [← (here.unique segment).1]
      exact ⟨BitVec.le_refl v, fun behind => absurd behind (Nat.lt_irrefl i)⟩
  · rcases known.most with ⟨-, zero⟩ | ⟨k, f'', ⟨below, segment, later⟩, order⟩
    · exact absurd (zero ▸ BitVec.le_def.mpr (Nat.zero_le _)) low'
    · refine ⟨k, f'', ⟨Nat.lt_succ_of_lt below, segment, fun i inside v' f' m' other => ?_⟩, BitVec.le_trans lowest.1 order⟩
      rcases Nat.lt_succ_iff_lt_or_eq.mp inside with less | rfl
      · exact later i less v' f' m' other
      · rw [← (here.unique other).1]
        have less := BitVec.not_le.mp low'
        exact ⟨BitVec.le_of_lt less, fun _ => less⟩

theorem findBounds_of {total : Nat} (sum : j + n = total)
    (readable : ∀ i < total, phField image phtab i 0#32 = some elfPtLoad → ∃ v f m, IsSegment image phtab i v f m)
    (known : b.Of image phtab j) (found : findBounds image phtab n j b = some b') : b'.Of image phtab total := by
  induction n generalizing j b with
  | zero =>
      cases found
      exact sum ▸ known
  | succ n ih =>
      obtain ⟨type, isType, found⟩ := Option.bind_eq_some_iff.mp found
      split_ifs at found with skipped
      · exact ih (by omega) (known.skip fun load => skipped (Option.some.inj (isType.symm.trans load))) found
      · have load : phField image phtab j 0#32 = some elfPtLoad := by rw [isType, not_not.mp skipped]
        obtain ⟨v, f, m, here⟩ := readable j (by omega) load
        obtain ⟨v', isVaddr, found⟩ := Option.bind_eq_some_iff.mp found
        cases here.vaddr.symm.trans isVaddr
        have low : (if v ≤ b.minaddr then { b with minaddr := v } else b) =
            ⟨if v ≤ b.minaddr then v else b.minaddr, b.maxaddr, b.lastSegmentSize⟩ := by
          split_ifs <;> rfl
        have lowest : (if v ≤ b.minaddr then v else b.minaddr) ≤ b.minaddr ∧ (if v ≤ b.minaddr then v else b.minaddr) ≤ v := by
          split_ifs with less
          · exact ⟨less, BitVec.le_refl v⟩
          · exact ⟨BitVec.le_refl _, BitVec.le_of_lt (BitVec.not_le.mp less)⟩
        have next := known.segment here lowest
        rw [low] at found
        by_cases high : v ≥ b.maxaddr
        · rw [if_pos high, here.memSize] at found
          exact ih (by omega) (next.1 high) found
        · rw [if_neg high] at found
          exact ih (by omega) (next.2 high) found

/-! ## The pages -/

theorem Bounds.plan_minaddr (b : Bounds) (phtab : Word) (count : Nat) :
    (b.plan phtab count).minaddr.toNat = b.minaddr.toNat - b.minaddr.toNat % 4096 := by
  have rest : (b.minaddr % 4096#32).toNat = b.minaddr.toNat % 4096 := BitVec.toNat_umod
  have below : b.minaddr % 4096#32 ≤ b.minaddr := by
    rw [BitVec.le_def, rest]
    exact Nat.mod_le _ _
  exact (BitVec.toNat_sub_of_le below).trans (by rw [rest])

theorem pages_toNat (size : Word) (small : size.toNat + 4096 < 2 ^ 32) :
    (size / 4096#32 + if size % 4096#32 > 0#32 then 1#32 else 0#32).toNat = (size.toNat + 4095) / 4096 := by
  have quotient : (size / 4096#32).toNat = size.toNat / 4096 := BitVec.toNat_udiv
  have rest : (size % 4096#32).toNat = size.toNat % 4096 := BitVec.toNat_umod
  have part : size % 4096#32 > 0#32 ↔ 0 < size.toNat % 4096 := by
    rw [gt_iff_lt, BitVec.lt_def, rest]
    rfl
  rw [BitVec.toNat_add, quotient]
  split_ifs with more
  · have := part.mp more
    rw [show (1#32 : Word).toNat = 1 from rfl]
    omega
  · have := mt part.mpr more
    rw [show (0#32 : Word).toNat = 0 from rfl]
    omega

theorem Bounds.plan_pages {count : Nat} (order : b.minaddr ≤ b.maxaddr)
    (fits : b.maxaddr.toNat + b.lastSegmentSize.toNat < kernelStart.toNat) :
    (b.plan phtab count).minaddr.toNat + (b.plan phtab count).requiredPages.toNat * 4096 =
      (b.maxaddr.toNat + b.lastSegmentSize.toNat + 4095) / 4096 * 4096 := by
  have start := b.plan_minaddr phtab count
  have less := BitVec.le_def.mp order
  rw [kernelStart_toNat] at fits
  have size : (b.maxaddr + b.lastSegmentSize - (b.plan phtab count).minaddr).toNat =
      b.maxaddr.toNat + b.lastSegmentSize.toNat - (b.plan phtab count).minaddr.toNat := by
    have sum : (b.maxaddr + b.lastSegmentSize).toNat = b.maxaddr.toNat + b.lastSegmentSize.toNat := by
      rw [BitVec.toNat_add]
      omega
    rw [BitVec.toNat_sub_of_le (by rw [BitVec.le_def, sum]; omega), sum]
  have pages : (b.plan phtab count).requiredPages.toNat = _ :=
    pages_toNat (b.maxaddr + b.lastSegmentSize - (b.plan phtab count).minaddr) (by rw [size]; omega)
  rw [pages, size, start]
  omega

theorem makePlan_last (formed : plan.WellFormed image) (made : makePlan image = .ok plan) :
    (∀ i < plan.count, ∀ v f m, IsSegment image plan.phtab i v f m → plan.minaddr.toNat ≤ v.toNat) ∧
      ((∀ i < plan.count, phField image plan.phtab i 0#32 ≠ some elfPtLoad) ∨
        ∃ k v f m, StartsLast image plan.phtab plan.count k v f m ∧
          plan.minaddr.toNat + plan.requiredPages.toNat * 4096 = (v.toNat + m.toNat + 4095) / 4096 * 4096) := by
  simp only [makePlan] at made
  split at made
  · cases made
  · split at made
    · cases made
    · rename_i found
      cases made
      simp only [Option.bind_eq_bind, Option.bind_eq_some_iff, Option.pure_def, Option.some.injEq] at found
      obtain ⟨phtab, -, count, -, b, found, rfl⟩ := found
      have start : (⟨0xffffffff#32, 0#32, 0#32⟩ : Bounds).Of image phtab 0 :=
        ⟨fun i before => absurd before (Nat.not_lt_zero i), .inl ⟨fun i before => absurd before (Nat.not_lt_zero i), rfl⟩⟩
      have known := findBounds_of (Nat.zero_add _) (fun i inside load =>
        (formed i inside load).imp fun v segment => segment.imp fun f here => here.imp fun m all => all.1) start found
      refine ⟨fun i inside v f m segment => ?_, known.most.imp (fun none => none.1) ?_⟩
      · rw [b.plan_minaddr]
        have := BitVec.le_def.mp (known.least i inside v f m segment)
        omega
      · rintro ⟨k, f, last, order⟩
        obtain ⟨v', f', m', segment, fits, -⟩ := formed k last.1 last.2.1.load
        obtain ⟨rfl, -, rfl⟩ := segment.unique last.2.1
        exact ⟨k, _, f, _, last, Bounds.plan_pages order fits⟩
  · cases made

theorem StartsLast.unique (last : StartsLast image phtab n k v f m) (last' : StartsLast image phtab n j v' f' m') :
    v = v' ∧ m = m' := by
  obtain ⟨inside, segment, others⟩ := last
  obtain ⟨inside', segment', others'⟩ := last'
  rcases Nat.lt_trichotomy k j with less | rfl | less
  · have := BitVec.lt_def.mp ((others j inside' v' f' m' segment').2 less)
    have := BitVec.le_def.mp (others' k inside v f m segment).1
    omega
  · obtain ⟨same, -, same'⟩ := segment.unique segment'
    exact ⟨same, same'⟩
  · have := BitVec.lt_def.mp ((others' k inside v f m segment).2 less)
    have := BitVec.le_def.mp (others j inside' v' f' m' segment').1
    omega

-- where the bytes of a segment are
theorem segment_addr (fits : v.toNat + m.toNat < kernelStart.toNat) (inside : j < m.toNat) :
    (v + BitVec.ofNat 32 j).toNat = v.toNat + j := by
  rw [kernelStart_toNat] at fits
  rw [BitVec.toNat_add, BitVec.toNat_ofNat]
  omega

/-- The pages mapped hold all that is stored just in case no segment ends above the one that they end with. -/
theorem loader_covers_iff (image : Image) (plan : Plan) (made : makePlan image = .ok plan) (formed : plan.WellFormed image) :
    (∀ addr, plan.Stores image addr → plan.Maps addr) ↔ plan.EndsLast image := by
  obtain ⟨least, ends⟩ := makePlan_last formed made
  constructor
  · intro covered k v f m last i inside v' f' m' segment
    rcases ends with none | ⟨k', w, g, n, last', pages⟩
    · exact absurd segment.load (none i inside)
    obtain ⟨rfl, rfl⟩ := last.unique last'
    rcases Nat.eq_zero_or_pos m'.toNat with empty | positive
    · have := BitVec.le_def.mp (last.2.2 i inside v' f' m' segment).1
      omega
    · obtain ⟨v'', f'', m'', segment', fits, -⟩ := formed i inside segment.load
      obtain ⟨rfl, rfl, rfl⟩ := segment'.unique segment
      have top : m''.toNat - 1 < m''.toNat := Nat.sub_one_lt_of_lt positive
      have mapped := covered _ ⟨i, inside, _, _, _, segment, m''.toNat - 1, .inr top, rfl⟩
      rw [Plan.Maps, segment_addr fits top, pages] at mapped
      omega
  · rintro endsLast addr ⟨i, inside, v, f, m, segment, j, below, rfl⟩
    obtain ⟨v', f', m', segment', fits, shorter⟩ := formed i inside segment.load
    obtain ⟨rfl, rfl, rfl⟩ := segment'.unique segment
    have within : j < m'.toNat := below.elim (fun less => Nat.lt_of_lt_of_le less (BitVec.le_def.mp shorter)) id
    rcases ends with none | ⟨k, w, g, n, last, pages⟩
    · exact absurd segment.load (none i inside)
    have first := least i inside _ _ _ segment
    have top := endsLast k w g n last i inside _ _ _ segment
    rw [Plan.Maps, segment_addr fits within, pages]
    omega

/-! ## What a load stores to -/

namespace Load
variable {l : Load} {addr : Word}

theorem storeBytes_only {bytes : Nat → Option Byte} {dst : Word} (member : .stored addr ∈ (l.storeBytes bytes dst n i).1.log) :
    .stored addr ∈ l.log ∨ ∃ j, j < i + n ∧ addr = dst + BitVec.ofNat 32 j := by
  induction n generalizing l i with
  | zero => exact .inl member
  | succ n ih =>
      rw [storeBytes] at member
      split at member
      · exact .inl member
      · rename_i mid stored
        obtain ⟨value, -, stored⟩ := Option.bind_eq_some_iff.mp stored
        obtain ⟨frame, -, rfl⟩ := Option.map_eq_some_iff.mp stored
        rcases ih member with before | ⟨j, inside, rfl⟩
        · rcases List.mem_cons.mp before with same | before
          · cases same
            exact .inr ⟨i, by omega, rfl⟩
          · exact .inl before
        · exact .inr ⟨j, by omega, rfl⟩

theorem copySegment_only (segment : IsSegment image phtab i v f m) (member : .stored addr ∈ (l.copySegment image phtab i).1.log) :
    .stored addr ∈ l.log ∨ ∃ j, (j < f.toNat ∨ j < m.toNat) ∧ addr = v + BitVec.ofNat 32 j := by
  have copied : ∀ offset, .stored addr ∈ (l.memcpy image v offset f).1.log →
      .stored addr ∈ l.log ∨ ∃ j, (j < f.toNat ∨ j < m.toNat) ∧ addr = v + BitVec.ofNat 32 j := by
    intro offset stored
    rcases storeBytes_only stored with before | ⟨j, inside, same⟩
    · exact .inl before
    · exact .inr ⟨j, .inl (by omega), same⟩
  rw [copySegment, segment.vaddr, segment.fileSize, segment.memSize] at member
  cases isOffset : phField image phtab i 4#32 with
  | none =>
      rw [isOffset] at member
      exact .inl member
  | some offset =>
      rw [isOffset] at member
      dsimp only [Option.bind_eq_bind, Option.bind_some] at member
      cases copy : l.memcpy image v offset f with
      | mk mid stop =>
          have before := copied offset
          rw [copy] at before
          simp only [Option.pure_def, copy] at member
          cases stop with
          | some stop => exact before member
          | none =>
              dsimp only at member before
              split_ifs at member with larger
              · rcases storeBytes_only member with stored | ⟨j, inside, rfl⟩
                · exact before stored
                · have rest : (m - f).toNat = m.toNat - f.toNat := BitVec.toNat_sub_of_le (BitVec.le_of_lt larger)
                  have less := BitVec.lt_def.mp larger
                  refine .inr ⟨f.toNat + j, .inr (by omega), ?_⟩
                  rw [BitVec.ofNat_add, BitVec.ofNat_toNat, BitVec.setWidth_eq, BitVec.add_assoc]
              · exact before member

/-- By induction on the headers; those of `segments` are the ones copied. -/
theorem copySegments_only {total : Nat} (sum : i + n = total)
    (readable : ∀ i < total, phField image phtab i 0#32 = some elfPtLoad → ∃ v f m, IsSegment image phtab i v f m)
    (member : .stored addr ∈ (l.copySegments image phtab n i).1.log) :
    .stored addr ∈ l.log ∨ ∃ k < total, ∃ v f m, IsSegment image phtab k v f m ∧
      ∃ j, (j < f.toNat ∨ j < m.toNat) ∧ addr = v + BitVec.ofNat 32 j := by
  induction n generalizing l i with
  | zero => exact .inl member
  | succ n ih =>
      rw [copySegments] at member
      cases isType : phField image phtab i 0#32 with
      | none =>
          rw [isType] at member
          exact .inl member
      | some type =>
          rw [isType] at member
          dsimp only at member
          split_ifs at member with skipped
          · exact ih (by omega) member
          · obtain ⟨v, f, m, segment⟩ := readable i (by omega) (by rw [isType, not_not.mp skipped])
            have own : .stored addr ∈ (l.copySegment image phtab i).1.log → _ := copySegment_only segment
            cases copy : l.copySegment image phtab i with
            | mk mid stop =>
                rw [copy] at own member
                have here := fun stored => (own stored).imp_right fun bytes => (⟨i, (by omega : i < total), v, f, m, segment, bytes⟩ :
                  ∃ k < total, ∃ v f m, IsSegment image phtab k v f m ∧ ∃ j, (j < f.toNat ∨ j < m.toNat) ∧ addr = v + BitVec.ofNat 32 j)
                cases stop with
                | some stop => exact here member
                | none => exact (ih (by omega) member).elim here .inr

theorem fill_stores {l' : Load} {pd : Word} {result : Except Stop Word} (formed : plan.WellFormed image)
    (done : l.fill image plan pd = (l', result)) :
    (.stored addr ∈ l'.log → .stored addr ∈ l.log ∨ plan.Stores image addr) ∧
      ∀ entry, result = .ok entry → plan.Stores image addr → .stored addr ∈ l'.log := by
  have readable : ∀ i < plan.count, phField image plan.phtab i 0#32 = some elfPtLoad → ∃ v f m, IsSegment image plan.phtab i v f m :=
    fun i inside load => (formed i inside load).imp fun v segment => segment.imp fun f here => here.imp fun m all => all.1
  constructor
  · have only : .stored addr ∈ ((l.switch pd).copySegments image plan.phtab plan.count 0).1.log → _ :=
      copySegments_only (Nat.zero_add _) readable
    intro member
    have log : l'.log = ((l.switch pd).copySegments image plan.phtab plan.count 0).1.log := by
      rw [fill] at done
      cases copy : (l.switch pd).copySegments image plan.phtab plan.count 0 with
      | mk filled stop =>
          rw [copy] at done
          cases stop with
          | some stop =>
              cases done
              rfl
          | none =>
              dsimp only at done
              split at done <;> cases done <;> rfl
    exact only (log ▸ member)
  · rintro entry rfl ⟨i, inside, v, f, m, segment, j, below, rfl⟩
    rcases below with inFile | inMemory
    · exact (fill_log done).2 i inside segment.load v f segment.vaddr (.inl segment.fileSize) j inFile
    · exact (fill_log done).2 i inside segment.load v m segment.vaddr (.inr segment.memSize) j inMemory

end Load

/-! ## Images -/

-- 4 bytes at 0x400000, and 8 at 0x401000 of which 4 are in the file
def twoSegments : Image :=
  fileOf (elfHeader ++ [(28, 52#8), (44, 2#8), (52, 1#8), (62, 0x40#8), (68, 4#8), (72, 4#8),
    (84, 1#8), (93, 0x10#8), (94, 0x40#8), (100, 4#8), (104, 8#8)])

theorem twoSegments_formed : (⟨52#32, 2, 0x400000#32, 2#32⟩ : Plan).WellFormed twoSegments := by
  intro i inside _
  rcases Nat.lt_succ_iff_lt_or_eq.mp inside with first | rfl
  · obtain rfl : i = 0 := Nat.lt_one_iff.mp first
    exact ⟨0x400000#32, 4#32, 4#32, ⟨rfl, rfl, rfl, rfl⟩, by decide, by decide⟩
  · exact ⟨0x401000#32, 4#32, 8#32, ⟨rfl, rfl, rfl, rfl⟩, by decide, by decide⟩

theorem twoSegments_endsLast : (⟨52#32, 2, 0x400000#32, 2#32⟩ : Plan).EndsLast twoSegments := by
  have first : IsSegment twoSegments 52#32 0 0x400000#32 4#32 4#32 := ⟨rfl, rfl, rfl, rfl⟩
  have second : IsSegment twoSegments 52#32 1 0x401000#32 4#32 8#32 := ⟨rfl, rfl, rfl, rfl⟩
  rintro k v f m ⟨below, here, highest⟩ i inside v' f' m' segment
  have high := (highest 1 (by decide) _ _ _ second).1
  rcases Nat.lt_succ_iff_lt_or_eq.mp below with isFirst | rfl
  · obtain rfl : k = 0 := Nat.lt_one_iff.mp isFirst
    obtain ⟨rfl, -, -⟩ := first.unique here
    exact absurd high (by decide)
  · obtain ⟨rfl, -, rfl⟩ := second.unique here
    rcases Nat.lt_succ_iff_lt_or_eq.mp inside with isFirst | rfl
    · obtain rfl : i = 0 := Nat.lt_one_iff.mp isFirst
      obtain ⟨rfl, -, rfl⟩ := first.unique segment
      decide
    · obtain ⟨rfl, -, rfl⟩ := second.unique segment
      decide

/-- The last byte of each segment is stored, and its page is mapped. -/
theorem loader_covers_iff_two_segments :
    ((⟨52#32, 2, 0x400000#32, 2#32⟩ : Plan).Stores twoSegments 0x400003#32 ∧
        (⟨52#32, 2, 0x400000#32, 2#32⟩ : Plan).Maps 0x400003#32) ∧
      (⟨52#32, 2, 0x400000#32, 2#32⟩ : Plan).Stores twoSegments 0x401007#32 ∧
        (⟨52#32, 2, 0x400000#32, 2#32⟩ : Plan).Maps 0x401007#32 := by
  have covers := (loader_covers_iff twoSegments ⟨52#32, 2, 0x400000#32, 2#32⟩ rfl twoSegments_formed).mpr twoSegments_endsLast
  have first : (⟨52#32, 2, 0x400000#32, 2#32⟩ : Plan).Stores twoSegments 0x400003#32 :=
    ⟨0, by decide, 0x400000#32, 4#32, 4#32, ⟨rfl, rfl, rfl, rfl⟩, 3, .inl (by decide), rfl⟩
  have second : (⟨52#32, 2, 0x400000#32, 2#32⟩ : Plan).Stores twoSegments 0x401007#32 :=
    ⟨1, by decide, 0x401000#32, 4#32, 8#32, ⟨rfl, rfl, rfl, rfl⟩, 7, .inr (by decide), rfl⟩
  exact ⟨⟨first, covers _ first⟩, second, covers _ second⟩

-- 12288 bytes at 0x400000, and 4 bytes at 0x401000
def overlapping : Image :=
  fileOf (elfHeader ++ [(28, 52#8), (44, 2#8), (52, 1#8), (62, 0x40#8), (69, 0x30#8), (73, 0x30#8),
    (84, 1#8), (93, 0x10#8), (94, 0x40#8), (100, 4#8), (104, 4#8)])

theorem overlapping_formed : (⟨52#32, 2, 0x400000#32, 2#32⟩ : Plan).WellFormed overlapping := by
  intro i inside _
  rcases Nat.lt_succ_iff_lt_or_eq.mp inside with first | rfl
  · obtain rfl : i = 0 := Nat.lt_one_iff.mp first
    exact ⟨0x400000#32, 0x3000#32, 0x3000#32, ⟨rfl, rfl, rfl, rfl⟩, by decide, by decide⟩
  · exact ⟨0x401000#32, 4#32, 4#32, ⟨rfl, rfl, rfl, rfl⟩, by decide, by decide⟩

/-- Two pages are mapped, and the first segment has three. -/
theorem loader_misses_page : ∃ plan, makePlan overlapping = .ok plan ∧ plan.WellFormed overlapping ∧
    plan.Stores overlapping 0x402000#32 ∧ ¬ plan.Maps 0x402000#32 := by
  refine ⟨⟨52#32, 2, 0x400000#32, 2#32⟩, rfl, overlapping_formed, ⟨0, by decide, 0x400000#32, 0x3000#32, 0x3000#32,
    ⟨rfl, rfl, rfl, rfl⟩, 0x2000, .inl (by decide), rfl⟩, ?_⟩
  rintro ⟨-, below⟩
  exact absurd below (by decide)

end Kerosene.Elf
