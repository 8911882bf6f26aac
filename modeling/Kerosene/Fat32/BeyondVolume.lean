import Kerosene.Fat32.AllocationRange
import Kerosene.Fat32.EntryFrame

/-!
# Behind the volume

The driver never looks at the number of clusters, and its search for free ones goes on behind the volume. That is the search
of a volume with as many clusters as there are cluster numbers.
-/

namespace Kerosene.Fat32
open Lib Libc

namespace Fat
variable {f : Fat} {c : Nat}

/-- The same words, all those below `FAT_BAD_CLUSTER` taken for clusters. -/
def beyond (f : Fat) : Fat := { f with totalClusters := fatBadCluster - 2 }

theorem Volume.beyond (volume : f.Volume) : f.beyond.Volume := ⟨le_rfl, volume.hint⟩

theorem InUse.beyond (volume : f.Volume) (used : f.InUse c) : f.beyond.InUse c :=
  ⟨⟨used.data.1, volume.below used.data⟩, used.notFree, used.notBad⟩

theorem freeFrom_append (f : Fat) (n m i : Nat) : f.freeFrom (n + m) i = f.freeFrom n i ++ f.freeFrom m (i + n) := by
  rw [freeFrom, freeFrom, freeFrom, ← List.filter_append, List.range'_append_1]

theorem available_prefix (volume : f.Volume) : f.available <+: f.beyond.available := by
  have fits := volume.fits
  rw [available, available]
  obtain ⟨m, total⟩ := Nat.exists_eq_add_of_le (show f.totalClusters + 2 - f.availableClustersStart ≤
    f.beyond.totalClusters + 2 - f.beyond.availableClustersStart by
      change _ ≤ fatBadCluster - 2 + 2 - f.availableClustersStart
      omega)
  rw [total, freeFrom_append]
  exact List.prefix_append ..

end Fat

/-! ## The loop without a bound -/

namespace Allocation
def beyond (a : Allocation) : Allocation := { a with disk := a.disk.withFat a.disk.fat.beyond }

theorem step_beyond (clear : Bool) (a : Allocation) : a.beyond.step clear = (a.step clear).beyond := by
  have linked : a.beyond.linked = a.linked.withFat a.linked.fat.beyond := by
    unfold Allocation.linked
    by_cases first : a.start = 0
    · rw [if_pos first]
      exact if_pos first
    · rw [if_neg first]
      exact if_neg first
  by_cases isFree : a.disk.fat.getFatEntry a.current = fatFreeCluster
  · rw [step, step, if_pos isFree, linked]
    refine (if_pos isFree).trans ?_
    cases clear <;> rfl
  · rw [step_used isFree]
    exact step_used isFree

theorem search_beyond (clear : Bool) (rounds : Nat) (a : Allocation) :
    search clear rounds a.beyond = (search clear rounds a).map beyond := by
  induction rounds generalizing a with
  | zero =>
      rw [search, search, show a.beyond.clusterCount = a.clusterCount from rfl]
      split_ifs <;> rfl
  | succ rounds ih =>
      rw [search, search, step_beyond, ih, show a.beyond.clusterCount = a.clusterCount from rfl]
      split_ifs <;> rfl

end Allocation

namespace Disk
variable {d : Disk} {chain : List Nat} {n start : Nat} {g : Fat}

def beyond (d : Disk) : Disk := d.withFat d.fat.beyond

theorem DirChain.beyond (on : d.DirChain chain) : d.beyond.DirChain chain := on.kept fun _ _ => rfl

theorem allocateClusters_beyond (d : Disk) (rounds n : Nat) (clear : Bool) :
    d.beyond.allocateClusters rounds n clear = (d.allocateClusters rounds n clear).map fun r => (r.1, r.2.1.beyond, r.2.2) := by
  have same := Allocation.search_beyond clear rounds
    ⟨d, fun _ => 0, n, d.fat.availableClustersStart, 0, 0, d.fat.freeClusterCount, []⟩
  refine (congrArg (Option.bind · _) same).trans ?_
  rw [allocateClusters]
  cases Allocation.search clear rounds ⟨d, fun _ => 0, n, d.fat.availableClustersStart, 0, 0, d.fat.freeClusterCount, []⟩ with
  | none => rfl
  | some a =>
      simp only [Option.map_some, Option.bind_eq_bind, Option.bind_some, show a.beyond.start = a.start from rfl,
        show a.beyond.current = a.current from rfl]
      split_ifs
      · rfl
      · rfl

/-- Where the words are left, the bounded search on them is the loop of the code. -/
theorem allocate_unbounded (volume : d.fat.Volume) (word : d.fat.availableClustersStart < 2 ^ 32) (pos : 1 ≤ n) (clear : Bool)
    (done : d.beyond.fat.fat32AllocateClusters n = some (start, g)) :
    ∃ rounds d' touched, d.allocateClusters rounds n clear = some (start, d', touched) ∧ d'.beyond = d.withFat g := by
  have enough := Fat.allocate_enough done
  have hint := volume.hint
  obtain ⟨n, rfl⟩ : ∃ k, n = k + 1 := ⟨n - 1, by omega⟩
  obtain ⟨g', start', last, loop, head, member, laid⟩ := Fat.allocateLoop_first (f := d.beyond.fat)
    (show d.fat.availableClustersStart ≠ 0 by omega) enough d.fat.freeClusterCount
  have range : d.fat.availableClustersStart + (d.beyond.fat.totalClusters + 2 - d.fat.availableClustersStart) ≤ 2 ^ 32 := by
    change d.fat.availableClustersStart + (fatBadCluster - 2 + 2 - d.fat.availableClustersStart) ≤ 2 ^ 32
    simp only [fatBadCluster]
    omega
  obtain ⟨a, searched, fat, first, current, left, -⟩ := Allocation.search_of_loop clear
    (a := ⟨d.beyond, fun _ => 0, n + 1, d.fat.availableClustersStart, 0, 0, d.fat.freeClusterCount, []⟩) range
    (Nat.mod_eq_of_lt word).symm loop
  have free : ∀ c ∈ (d.beyond.fat.available.take (n + 1)), d.beyond.fat.Free c := fun c among =>
    Fat.available_free volume.hint (List.mem_of_mem_take among)
  have started : start' ≠ 0 := by
    have := (free start' (List.mem_of_mem_head? head)).data.1
    omega
  have back : (a.current + (2 ^ 32 - 1)) % 2 ^ 32 = last := by
    have below := volume.beyond.below (free last member).data
    simp only [fatBadCluster] at below
    rw [current]
    omega
  obtain ⟨found, loop', rest⟩ := Option.bind_eq_some_iff.mp done
  cases loop.symm.trans loop'
  dsimp only at rest
  rw [if_neg started] at rest
  cases rest
  have all : d.beyond.allocateClusters (d.beyond.fat.totalClusters + 2 - d.fat.availableClustersStart) (n + 1) clear = some
      (start, a.disk.withFat ((a.disk.fat.setFatEntry last fatEoc).withFsinfo last a.free), a.touched ++ [last]) := by
    refine Option.bind_eq_some_iff.mpr ⟨a, searched, ?_⟩
    rw [first, if_neg started, back]
    rfl
  rw [allocateClusters_beyond] at all
  obtain ⟨⟨start', d', touched⟩, unbounded, same⟩ := Option.map_eq_some_iff.mp all
  obtain ⟨rfl, rest⟩ := Prod.mk.inj same
  have disk := (Prod.mk.inj rest).1
  obtain ⟨data, sectors⟩ := Allocation.search_data searched
  refine ⟨_, d', touched, unbounded, ?_⟩
  rw [disk, withFat, data, sectors, fat, left]
  rfl

theorem iterateLoop_beyond (d : Disk) (rootdirCluster : UInt32) (ret : FsNode) (fuel current iter : Nat) (s : Decoder) :
    d.beyond.iterateLoop rootdirCluster ret fuel current iter s = d.iterateLoop rootdirCluster ret fuel current iter s := by
  induction fuel generalizing current iter s with
  | zero => rfl
  | succ fuel ih =>
      rw [iterateLoop, iterateLoop]
      simp only [ih]
      rfl

theorem iterateAll_beyond (d : Disk) (rootdirCluster : UInt32) (fuel : Nat) (stale : Nat → Stale) (rounds : Nat)
    (diriter : DirectoryIterator) : d.beyond.iterateAll rootdirCluster fuel stale rounds diriter =
      d.iterateAll rootdirCluster fuel stale rounds diriter := by
  induction rounds generalizing diriter with
  | zero => rfl
  | succ rounds ih =>
      rw [iterateAll, iterateAll, fat32IterateDirectory, fat32IterateDirectory]
      simp only [ih, iterateLoop_beyond]
      rfl

theorem listDirectory_beyond (d : Disk) : d.beyond.listDirectory = d.listDirectory := by
  funext rootdirCluster fuel stale startCluster
  exact d.iterateAll_beyond ..

end Disk
end Kerosene.Fat32
