import Kerosene.Fat32.FileWrite
import Kerosene.Lib.Words

/-!
# The entries and the clusters that an allocation touches

`fat32_allocate_clusters` with its loop as the code has it: nothing bounds it but the count, a cluster
number is a `uint32_t`, and `clear` makes an access to the data. The FAT entries that it reads and
writes are recorded.
-/

namespace Kerosene.Fat32
open Lib

-- `ata_pio_LBA28_access` on a whole cluster: the disk and the buffer
def ataAccess (d : Disk) (readOp : Bool) (cluster : Nat) (buffer : Bytes) : Disk × Bytes :=
  if readOp then (d, d.data cluster) else (d.setData cluster buffer, buffer)

/-- The variables of `fat32_allocate_clusters`. -/
structure Allocation where
  disk : Disk
  zero : Bytes
  clusterCount : Nat
  current : Nat
  start : Nat
  prev : Nat
  free : BitVec 32
  touched : List Nat

namespace Allocation

-- The free cluster is linked to the one before it, if there is one.
def linked (a : Allocation) : Disk :=
  if a.start = 0 then a.disk else a.disk.withFat (a.disk.fat.setFatEntry a.prev a.current)

def step (clear : Bool) (a : Allocation) : Allocation :=
  let touched := a.touched ++ [a.current]
  let next := (a.current + 1) % 2 ^ 32
  if a.disk.fat.getFatEntry a.current = fatFreeCluster then
    let cleared := if clear then ataAccess a.linked true a.current a.zero else (a.linked, a.zero)
    { disk := cleared.1
      zero := cleared.2
      clusterCount := a.clusterCount - 1
      current := next
      start := if a.start = 0 then a.current else a.start
      prev := a.current
      free := a.free - 1#32
      touched := if a.start = 0 then touched else touched ++ [a.prev] }
  else { a with current := next, touched := touched }

/-- The loop, `none` when it is not finished within `rounds`. -/
def search (clear : Bool) : (rounds : Nat) → Allocation → Option Allocation
  | 0, a => if a.clusterCount = 0 then some a else none
  | rounds + 1, a => if a.clusterCount = 0 then some a else search clear rounds (a.step clear)

end Allocation

-- What is returned, the disk, and the entries touched.
def Disk.allocateClusters (d : Disk) (rounds clusterCount : Nat) (clear : Bool) : Option (Nat × Disk × List Nat) := do
  let hint := d.fat.availableClustersStart
  let a ← Allocation.search clear rounds ⟨d, fun _ => 0, clusterCount, hint, 0, 0, d.fat.freeClusterCount, []⟩
  let current := (a.current + (2 ^ 32 - 1)) % 2 ^ 32
  if a.start = 0 then return (0, a.disk, a.touched)
  let fat := (a.disk.fat.setFatEntry current fatEoc).withFsinfo current a.free
  return (a.start, a.disk.withFat fat, a.touched ++ [current])

/-! ## One round -/

namespace Allocation
variable {a b : Allocation} {f g : Fat} {clear : Bool} {c k n rounds : Nat}

theorem step_used (used : a.disk.fat.getFatEntry a.current ≠ fatFreeCluster) :
    a.step clear = { a with current := (a.current + 1) % 2 ^ 32, touched := a.touched ++ [a.current] } := if_neg used

theorem step_free (isFree : a.disk.fat.getFatEntry a.current = fatFreeCluster) :
    ∃ zero, a.step clear =
      ⟨a.linked, zero, a.clusterCount - 1, (a.current + 1) % 2 ^ 32, if a.start = 0 then a.current else a.start, a.current,
        a.free - 1#32, if a.start = 0 then a.touched ++ [a.current] else a.touched ++ [a.current] ++ [a.prev]⟩ := by
  rw [step, if_pos isFree]
  cases clear with
  | false => exact ⟨_, rfl⟩
  | true => exact ⟨_, rfl⟩

theorem linked_data (a : Allocation) : a.linked.data = a.disk.data ∧ a.linked.sectorsPerCluster = a.disk.sectorsPerCluster := by
  unfold linked
  split_ifs
  · exact ⟨rfl, rfl⟩
  · exact ⟨rfl, rfl⟩

theorem step_data (clear : Bool) (a : Allocation) :
    (a.step clear).disk.data = a.disk.data ∧ (a.step clear).disk.sectorsPerCluster = a.disk.sectorsPerCluster := by
  by_cases isFree : a.disk.fat.getFatEntry a.current = fatFreeCluster
  · obtain ⟨zero, same⟩ := step_free isFree
    rw [same]
    exact a.linked_data
  · rw [step_used isFree]
    exact ⟨rfl, rfl⟩

theorem step_touched (clear : Bool) (a : Allocation) : ∃ more, (a.step clear).touched = a.touched ++ a.current :: more := by
  by_cases isFree : a.disk.fat.getFatEntry a.current = fatFreeCluster
  · obtain ⟨zero, same⟩ := step_free isFree
    rw [same]
    by_cases first : a.start = 0
    · exact ⟨[], if_pos first⟩
    · exact ⟨[a.prev], (if_neg first).trans (List.append_assoc ..)⟩
  · rw [step_used isFree]
    exact ⟨[], rfl⟩

/-! ## The loop -/

theorem search_none (finished : a.clusterCount = 0) : search clear rounds a = some a := by
  cases rounds with
  | zero => exact if_pos finished
  | succ rounds => exact if_pos finished

theorem search_succ (more : a.clusterCount ≠ 0) : search clear (rounds + 1) a = search clear rounds (a.step clear) :=
  if_neg more

theorem search_more {rounds' : Nat} (more : rounds ≤ rounds') (done : search clear rounds a = some b) :
    search clear rounds' a = some b := by
  induction rounds generalizing a rounds' with
  | zero =>
      rw [search] at done
      split_ifs at done with finished
      cases done
      exact search_none finished
  | succ rounds ih =>
      by_cases finished : a.clusterCount = 0
      · rw [search_none finished] at done ⊢
        exact done
      · obtain ⟨rounds', rfl⟩ := Nat.exists_eq_add_one.mpr (Nat.zero_lt_of_lt more)
        rw [search_succ finished] at done ⊢
        exact ih (Nat.succ_le_succ_iff.mp more) done

theorem search_keeps {P : Allocation → Prop} (keeps : ∀ a, P a → P (a.step clear)) (holds : P a)
    (done : search clear rounds a = some b) : P b := by
  induction rounds generalizing a with
  | zero =>
      rw [search] at done
      split_ifs at done
      cases done
      exact holds
  | succ rounds ih =>
      by_cases finished : a.clusterCount = 0
      · rw [search_none finished] at done
        cases done
        exact holds
      · rw [search_succ finished] at done
        exact ih (keeps a holds) done

theorem search_data (done : search clear rounds a = some b) :
    b.disk.data = a.disk.data ∧ b.disk.sectorsPerCluster = a.disk.sectorsPerCluster := by
  refine search_keeps (P := fun s => s.disk.data = a.disk.data ∧ s.disk.sectorsPerCluster = a.disk.sectorsPerCluster) ?_
    ⟨rfl, rfl⟩ done
  intro s same
  exact ⟨(step_data clear s).1.trans same.1, (step_data clear s).2.trans same.2⟩

theorem search_grows {x : Nat} (member : x ∈ a.touched) (done : search clear rounds a = some b) : x ∈ b.touched := by
  refine search_keeps (P := fun s => x ∈ s.touched) (fun s inside => ?_) member done
  obtain ⟨more, same⟩ := step_touched clear s
  rw [same]
  exact List.mem_append_left _ inside

theorem search_first (more : a.clusterCount ≠ 0) (done : search clear rounds a = some b) : a.current ∈ b.touched := by
  cases rounds with
  | zero =>
      rw [search, if_neg more] at done
      cases done
  | succ rounds =>
      rw [search_succ more] at done
      obtain ⟨rest, same⟩ := step_touched clear a
      refine search_grows ?_ done
      rw [same]
      simp

theorem linked_freeFrom (after : a.start ≠ 0 → a.prev < c) : a.linked.fat.freeFrom k c = a.disk.fat.freeFrom k c := by
  unfold linked
  split_ifs with first
  · rfl
  · exact Fat.freeFrom_set (after first) ..

theorem search_passes (inside : c + k ≤ 2 ^ 32) (here : a.current = c % 2 ^ 32)
    (after : a.start ≠ 0 → a.prev < c) (few : (a.disk.fat.freeFrom k c).length < a.clusterCount)
    (done : search clear rounds a = some b) : (c + k) % 2 ^ 32 ∈ b.touched := by
  induction k generalizing a c rounds with
  | zero =>
      rw [Nat.add_zero, ← here]
      exact search_first (by omega) done
  | succ k ih =>
      have same : a.current = c := here.trans (Nat.mod_eq_of_lt (by omega))
      obtain ⟨rounds, rfl⟩ : ∃ r, rounds = r + 1 := by
        cases rounds with
        | zero =>
            rw [search, if_neg (by omega)] at done
            cases done
        | succ r => exact ⟨r, rfl⟩
      rw [search_succ (by omega)] at done
      rw [Fat.freeFrom_succ] at few
      rw [show c + (k + 1) = c + 1 + k by omega]
      have later : a.start ≠ 0 → a.prev < c + 1 := fun started => (after started).trans (Nat.lt_succ_self c)
      by_cases isFree : a.disk.fat.getFatEntry c = fatFreeCluster
      · rw [if_pos isFree, List.length_cons] at few
        obtain ⟨zero, stepped⟩ := step_free (a := a) (by rwa [same])
        rw [stepped] at done
        refine ih (by omega) (by rw [same]) (fun _ => ?_) ?_ done
        · exact same.trans_lt (Nat.lt_succ_self c)
        · rw [linked_freeFrom later]
          exact Nat.lt_sub_of_add_lt few
      · rw [if_neg isFree] at few
        rw [step_used (by rwa [same])] at done
        exact ih (a := { a with current := (a.current + 1) % 2 ^ 32, touched := a.touched ++ [a.current] }) (by omega)
          (by rw [same]) later few done

theorem search_of_loop (clear : Bool) {start past : Nat} {left : BitVec 32} (inside : c + k ≤ 2 ^ 32) (here : a.current = c % 2 ^ 32)
    (loop : Fat.allocateLoop k a.disk.fat a.clusterCount c a.start a.prev a.free = some (g, start, past, left)) :
    ∃ b, search clear k a = some b ∧ b.disk.fat = g ∧ b.start = start ∧ b.current = past % 2 ^ 32 ∧ b.free = left ∧
      ∀ x ∈ b.touched, x ∈ a.touched ∨ (a.start ≠ 0 ∧ x = a.prev) ∨ (c ≤ x ∧ x < c + k) := by
  induction k generalizing a c with
  | zero =>
      rw [Fat.allocateLoop] at loop
      split_ifs at loop with finished
      cases loop
      exact ⟨a, search_none finished, rfl, rfl, here, rfl, fun x member => .inl member⟩
  | succ k ih =>
      have same : a.current = c := here.trans (Nat.mod_eq_of_lt (by omega))
      rw [Fat.allocateLoop] at loop
      by_cases finished : a.clusterCount = 0
      · rw [if_pos finished] at loop
        cases loop
        exact ⟨a, search_none finished, rfl, rfl, here, rfl, fun x member => .inl member⟩
      rw [if_neg finished] at loop
      rw [search_succ finished]
      by_cases isFree : a.disk.fat.getFatEntry c = fatFreeCluster
      · obtain ⟨zero, stepped⟩ := step_free (a := a) (by rwa [same])
        rw [if_pos isFree] at loop
        have fat : Fat.allocateLoop k a.linked.fat (a.clusterCount - 1) (c + 1) (if a.start = 0 then a.current else a.start)
            a.current (a.free - 1#32) = some (g, start, past, left) := by
          rw [same]
          unfold linked
          split_ifs at loop ⊢
          · exact loop
          · exact same ▸ loop
        rw [stepped]
        obtain ⟨b, done, data, first, last, count, touched⟩ := ih (a := ⟨a.linked, zero, a.clusterCount - 1,
          (a.current + 1) % 2 ^ 32, _, a.current, a.free - 1#32, _⟩) (c := c + 1) (by omega) (by rw [same]) fat
        refine ⟨b, done, data, first, last, count, fun x member => ?_⟩
        rcases touched x member with before | ⟨-, rfl⟩ | later
        · dsimp only at before
          split_ifs at before with none
          · rcases List.mem_append.mp before with old | here
            · exact .inl old
            · rw [List.mem_singleton.mp here]
              omega
          · rcases List.mem_append.mp before with old | here
            · rcases List.mem_append.mp old with old | here
              · exact .inl old
              · rw [List.mem_singleton.mp here]
                omega
            · exact .inr (.inl ⟨none, List.mem_singleton.mp here⟩)
        · dsimp only
          omega
        · omega
      · rw [if_neg isFree] at loop
        rw [step_used (by rwa [same])]
        obtain ⟨b, done, data, first, last, count, touched⟩ := ih (a := { a with
          current := (a.current + 1) % 2 ^ 32, touched := a.touched ++ [a.current] }) (c := c + 1) (by omega) (by rw [same]) loop
        refine ⟨b, done, data, first, last, count, fun x member => ?_⟩
        rcases touched x member with before | started | later
        · rcases List.mem_append.mp before with old | here
          · exact .inl old
          · rw [List.mem_singleton.mp here]
            omega
        · exact .inr (.inl started)
        · omega

end Allocation

/-! ## Staying in the volume -/

namespace Disk
variable {d d' : Disk} {n : Nat}

/-- The free clusters from the hint to the end of the volume, or to the last cluster number there is. -/
def candidates (d : Disk) : List Nat :=
  d.fat.freeFrom (min (d.fat.totalClusters + 2) (2 ^ 32) - d.fat.availableClustersStart) d.fat.availableClustersStart

/-- The call returns, touches no FAT entry but those of the volume's clusters, and takes nothing where there are too few. -/
def RespectsVolume (d : Disk) (n : Nat) (clear : Bool) : Prop :=
  ∃ rounds start d' touched, d.allocateClusters rounds n clear = some (start, d', touched) ∧
    (∀ c ∈ touched, d.fat.Data c) ∧ (d.fat.zeros < n → start = 0 ∧ d'.fat = d.fat)

theorem mem_range_candidates {c : Nat} (low : d.fat.availableClustersStart ≤ c)
    (high : c < d.fat.availableClustersStart + (min (d.fat.totalClusters + 2) (2 ^ 32) - d.fat.availableClustersStart)) :
    c < d.fat.totalClusters + 2 ∧ c < 2 ^ 32 := by
  rw [← lt_min_iff]
  generalize min (d.fat.totalClusters + 2) (2 ^ 32) = m at *
  omega

theorem length_candidates (hint : 2 ≤ d.fat.availableClustersStart) : d.candidates.length ≤ d.fat.zeros := by
  rw [Fat.zeros, candidates, Fat.freeFrom, ← List.toFinset_card_of_nodup ((List.nodup_range').filter _)]
  refine Finset.card_le_card fun c member => ?_
  obtain ⟨⟨low, high⟩, zero⟩ := Fat.mem_freeFrom.mp (List.mem_toFinset.mp member)
  exact Finset.mem_filter.mpr ⟨Finset.mem_range.mpr (mem_range_candidates low high).1, hint.trans low, zero⟩

theorem allocateClusters_data {rounds start : Nat} {clear : Bool} {touched : List Nat}
    (done : d.allocateClusters rounds n clear = some (start, d', touched)) :
    d'.data = d.data ∧ d'.sectorsPerCluster = d.sectorsPerCluster := by
  obtain ⟨a, searched, rest⟩ := Option.bind_eq_some_iff.mp done
  have same := Allocation.search_data searched
  split_ifs at rest
  · cases rest
    exact same
  · cases rest
    exact same

theorem allocateClusters_more {rounds rounds' : Nat} {clear : Bool} {r : Nat × Disk × List Nat} (more : rounds ≤ rounds')
    (done : d.allocateClusters rounds n clear = some r) : d.allocateClusters rounds' n clear = some r := by
  obtain ⟨a, searched, rest⟩ := Option.bind_eq_some_iff.mp done
  exact Option.bind_eq_some_iff.mpr ⟨a, Allocation.search_more more searched, rest⟩

theorem enough_of_inside {rounds start : Nat} {clear : Bool} {touched : List Nat} (word : d.fat.availableClustersStart < 2 ^ 32)
    (pos : 1 ≤ n) (done : d.allocateClusters rounds n clear = some (start, d', touched)) (inside : ∀ c ∈ touched, d.fat.Data c) :
    2 ≤ d.fat.availableClustersStart ∧ n ≤ d.candidates.length := by
  obtain ⟨a, searched, rest⟩ := Option.bind_eq_some_iff.mp done
  have seen : ∀ c ∈ a.touched, d.fat.Data c := by
    intro c member
    refine inside c ?_
    split_ifs at rest
    · cases rest
      exact member
    · cases rest
      exact List.mem_append_left _ member
  have first := seen _ (Allocation.search_first (Nat.one_le_iff_ne_zero.mp pos) searched)
  refine ⟨first.1, not_lt.mp fun few => ?_⟩
  have low : d.fat.availableClustersStart ≤ min (d.fat.totalClusters + 2) (2 ^ 32) := le_min first.2.le word.le
  have passed := seen _ (Allocation.search_passes
    (a := ⟨d, fun _ => 0, n, d.fat.availableClustersStart, 0, 0, d.fat.freeClusterCount, []⟩) (by omega)
    (Nat.mod_eq_of_lt word).symm (fun started => absurd rfl started) few searched)
  rw [Nat.add_sub_of_le low] at passed
  -- the cluster behind the volume, or cluster 0
  rcases min_choice (d.fat.totalClusters + 2) (2 ^ 32) with all | wraps
  · rw [all] at passed
    have := passed.2
    have := passed.1
    omega
  · rw [wraps, Nat.mod_self] at passed
    exact absurd passed.1 (by omega)

theorem allocateClusters_inside (word : d.fat.availableClustersStart < 2 ^ 32) (clear : Bool) (pos : 1 ≤ n)
    (hint : 2 ≤ d.fat.availableClustersStart) (enough : n ≤ d.candidates.length) :
    ∃ rounds start d' touched last left, d.allocateClusters rounds n clear = some (start, d', touched) ∧
      (∀ c ∈ touched, d.fat.Data c) ∧ (d.candidates.take n).head? = some start ∧
      d'.fat = (d.fat.lay (d.candidates.take n)).withFsinfo last left := by
  obtain ⟨n, rfl⟩ : ∃ k, n = k + 1 := ⟨n - 1, by omega⟩
  obtain ⟨g, start, last, loop, head, member, laid⟩ := Fat.allocateLoop_first (f := d.fat) (by omega) enough d.fat.freeClusterCount
  obtain ⟨a, searched, data, first, current, -, touched⟩ := Allocation.search_of_loop _ (c := d.fat.availableClustersStart)
    (a := ⟨d, fun _ => 0, n + 1, d.fat.availableClustersStart, 0, 0, d.fat.freeClusterCount, []⟩) (by omega)
    (Nat.mod_eq_of_lt word).symm loop
  have inside : ∀ c ∈ d.candidates, d.fat.Data c ∧ c < 2 ^ 32 := by
    intro c among
    obtain ⟨⟨low, high⟩, -⟩ := Fat.mem_freeFrom.mp among
    exact ⟨⟨hint.trans low, (mem_range_candidates low high).1⟩, (mem_range_candidates low high).2⟩
  have started : start ≠ 0 := by
    have := (inside start (List.mem_of_mem_take (List.mem_of_mem_head? head))).1.1
    omega
  have lastInside := inside last (List.mem_of_mem_take member)
  have back : (a.current + (2 ^ 32 - 1)) % 2 ^ 32 = last := by
    rw [current]
    omega
  have done : d.allocateClusters (min (d.fat.totalClusters + 2) (2 ^ 32) - d.fat.availableClustersStart) (n + 1) clear = some
      (start, a.disk.withFat ((a.disk.fat.setFatEntry last fatEoc).withFsinfo last a.free), a.touched ++ [last]) := by
    refine Option.bind_eq_some_iff.mpr ⟨a, searched, ?_⟩
    rw [first, if_neg started, back]
    rfl
  refine ⟨_, _, _, _, last, a.free, done, fun c among => ?_, head, ?_⟩
  · rcases List.mem_append.mp among with before | atLast
    · rcases touched c before with none | ⟨none, -⟩ | range
      · cases none
      · exact absurd rfl none
      · exact ⟨hint.trans range.1, (mem_range_candidates range.1 range.2).1⟩
    · rw [List.mem_singleton.mp atLast]
      exact lastInside.1
  · change (a.disk.fat.setFatEntry last fatEoc).withFsinfo last a.free = _
    rw [data, laid]
    rfl

/-- `fat32_allocate_clusters` keeps to the volume exactly when the search starts in it and finds enough there. -/
theorem allocation_respects_volume_iff (d : Disk) (word : d.fat.availableClustersStart < 2 ^ 32) (clear : Bool) (pos : 1 ≤ n) :
    d.RespectsVolume n clear ↔ 2 ≤ d.fat.availableClustersStart ∧ n ≤ d.candidates.length := by
  constructor
  · rintro ⟨rounds, start, d', touched, done, inside, -⟩
    exact enough_of_inside word pos done inside
  · rintro ⟨hint, enough⟩
    obtain ⟨rounds, start, d', touched, -, -, done, inside, -, -⟩ := allocateClusters_inside word clear pos hint enough
    refine ⟨rounds, start, d', touched, done, inside, fun few => ?_⟩
    have := length_candidates hint
    omega

-- a volume of three clusters: a directory, a file and a free cluster below the hint
def fullVolume : Disk where
  fat := ⟨fun c => if c = 2 ∨ c = 3 then 0x0fffffff#32 else 0#32, 3, 3, 1#32⟩
  sectorsPerCluster := 1
  data _ _ := 0

/-- The free cluster 4 is found. -/
theorem allocation_respects_volume_one_cluster : fullVolume.RespectsVolume 1 true :=
  (allocation_respects_volume_iff fullVolume (by decide) true (n := 1) (by decide)).mpr ⟨by decide, by decide⟩

/-- Of two clusters the second is cluster 5, which is not in the volume. -/
theorem allocation_leaves_volume : ¬ fullVolume.RespectsVolume 2 true ∧
    (fullVolume.allocateClusters 3 2 true).map (fun r => (r.1, r.2.1.fat.getFatEntry 4, r.2.1.fat.getFatEntry 5)) =
      some (4, 5, fatEoc) := by
  constructor
  · rintro ⟨rounds, start, d', touched, done, inside, -⟩
    obtain ⟨a, searched, rest⟩ := Option.bind_eq_some_iff.mp done
    have passed : 5 ∈ a.touched := Allocation.search_passes (c := 3) (k := 2)
      (a := ⟨fullVolume, fun _ => 0, 2, 3, 0, 0, 1#32, []⟩) (by decide) rfl (fun started => absurd rfl started) (by decide) searched
    have seen : 5 ∈ touched := by
      split_ifs at rest
      · cases rest
        exact passed
      · cases rest
        exact List.mem_append_left _ passed
    exact absurd (inside 5 seen).2 (by decide)
  · decide

end Disk
end Kerosene.Fat32
