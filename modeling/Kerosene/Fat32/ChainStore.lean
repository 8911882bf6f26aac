import Kerosene.Fat32.Clusters
import Kerosene.Lib.Machine
import Mathlib.Data.Finset.Card
import Mathlib.Data.Finset.Range
import Mathlib.Data.List.Perm.Basic
import Mathlib.Tactic.Ring

/-!
# The FAT as a store of disjoint chains
-/

namespace Kerosene.Fat32.Fat
open Lib
variable {f g : Fat} {c : Nat} {l : List Nat}

@[simp] theorem entry_withFsinfo (f : Fat) (hint : Nat) (free : BitVec 32) :
    (f.withFsinfo hint free).entry = f.entry := rfl
@[simp] theorem totalClusters_withFsinfo (f : Fat) (hint : Nat) (free : BitVec 32) :
    (f.withFsinfo hint free).totalClusters = f.totalClusters := rfl
@[simp] theorem getFatEntry_withFsinfo (f : Fat) (hint : Nat) (free : BitVec 32) :
    (f.withFsinfo hint free).getFatEntry = f.getFatEntry := rfl
@[simp] theorem totalClusters_setFatEntry (f : Fat) (cluster val : Nat) :
    (f.setFatEntry cluster val).totalClusters = f.totalClusters := rfl

theorem entry_setFatEntry_ne {cluster : Nat} (other : c ≠ cluster) (f : Fat) (val : Nat) :
    (f.setFatEntry cluster val).entry c = f.entry c := Function.update_of_ne other _ _

theorem getFatEntry_congr (same : g.entry c = f.entry c) : g.getFatEntry c = f.getFatEntry c := by
  rw [getFatEntry, same, getFatEntry]

theorem getFatEntry_set_ne {cluster : Nat} (other : c ≠ cluster) (f : Fat) (val : Nat) :
    (f.setFatEntry cluster val).getFatEntry c = f.getFatEntry c :=
  getFatEntry_congr (entry_setFatEntry_ne other f val)

theorem getFatEntry_set_self (f : Fat) (cluster : Nat) {v : Nat} (small : v < 2 ^ 28) :
    (f.setFatEntry cluster v).getFatEntry cluster = v := by
  have entry : (f.setFatEntry cluster v).entry cluster = BitVec.ofNat 32 v := Function.update_self _ _ _
  rw [getFatEntry, entry, BitVec.toNat_and, BitVec.toNat_ofNat,
    show (0x0fffffff#32).toNat = 2 ^ 28 - 1 from rfl, Nat.and_two_pow_sub_one_eq_mod]
  omega

/-- The cluster that follows `c` in its chain. -/
def link (f : Fat) (c : Nat) : Option Nat :=
  if f.getFatEntry c < fatEoc then some (f.getFatEntry c) else none

theorem link_congr (same : g.entry c = f.entry c) : g.link c = f.link c := by
  rw [link, getFatEntry_congr same, link]

theorem link_set_self (f : Fat) (cluster : Nat) {val : Nat} (small : val < fatEoc) :
    (f.setFatEntry cluster val).link cluster = some val := by
  have := getFatEntry_set_self f cluster (v := val) (by simp only [fatEoc] at small; omega)
  rw [link, this, if_pos small]

theorem link_set_eoc (f : Fat) (cluster : Nat) : (f.setFatEntry cluster fatEoc).link cluster = none := by
  rw [link, getFatEntry_set_self f cluster (by decide), if_neg (lt_irrefl _)]

def Data (f : Fat) (c : Nat) : Prop := 2 ≤ c ∧ c < f.totalClusters + 2

/-- A data cluster in a chain: neither free nor bad. -/
structure InUse (f : Fat) (c : Nat) : Prop where
  data : f.Data c
  notFree : f.getFatEntry c ≠ fatFreeCluster
  notBad : f.getFatEntry c ≠ fatBadCluster

structure Free (f : Fat) (c : Nat) : Prop where
  data : f.Data c
  entry : f.getFatEntry c = fatFreeCluster

/-- `chains` are the chains of the store: disjoint, without cycle, each ending at or above
`FAT_EOC`, and together all clusters in use. -/
structure Partition (f : Fat) (chains : List (List Nat)) : Prop where
  links : ∀ l ∈ chains, Seg f.link l.head? l none
  nodup : chains.flatten.Nodup
  covers : ∀ c, c ∈ chains.flatten ↔ f.InUse c

/-! ## Laying a chain over free clusters -/

def lay (f : Fat) : List Nat → Fat
  | [] => f
  | [a] => f.setFatEntry a fatEoc
  | a :: b :: l => lay (f.setFatEntry a b) (b :: l)

theorem lay_cons (f : Fat) (a b : Nat) (l : List Nat) : f.lay (a :: b :: l) = (f.setFatEntry a b).lay (b :: l) := rfl

@[simp] theorem totalClusters_lay (f : Fat) (l : List Nat) : (f.lay l).totalClusters = f.totalClusters := by
  induction l generalizing f with
  | nil => rfl
  | cons a l ih =>
      cases l with
      | nil => rfl
      | cons b l => rw [lay_cons, ih, totalClusters_setFatEntry]

theorem entry_lay (f : Fat) {l : List Nat} (outside : c ∉ l) : (f.lay l).entry c = f.entry c := by
  induction l generalizing f with
  | nil => rfl
  | cons a l ih =>
      cases l with
      | nil => exact entry_setFatEntry_ne (by simpa using outside) f fatEoc
      | cons b l =>
          rw [List.mem_cons, not_or] at outside
          rw [lay_cons, ih _ outside.2, entry_setFatEntry_ne outside.1]

theorem getFatEntry_lay (f : Fat) {l : List Nat} (nodup : l.Nodup) (small : ∀ a ∈ l, a < fatEoc) (member : c ∈ l) :
    (f.lay l).getFatEntry c ∈ l ∨ (f.lay l).getFatEntry c = fatEoc := by
  induction l generalizing f with
  | nil => cases member
  | cons a l ih =>
      cases l with
      | nil =>
          cases List.mem_singleton.mp member
          exact .inr (getFatEntry_set_self f _ (by decide))
      | cons b l =>
          rw [List.nodup_cons] at nodup
          rcases List.mem_cons.mp member with rfl | later
          · have next : b < fatEoc := small b (by simp)
            left
            rw [lay_cons, getFatEntry_congr (entry_lay _ nodup.1),
              getFatEntry_set_self f c (by simp only [fatEoc] at next; omega)]
            simp
          · rcases ih (f.setFatEntry a b) nodup.2 (fun x h => small x (List.mem_cons_of_mem a h)) later with h | h
            · exact .inl (List.mem_cons_of_mem a h)
            · exact .inr h

theorem seg_lay (f : Fat) {l : List Nat} (nodup : l.Nodup) (small : ∀ a ∈ l, a < fatEoc) :
    Seg (f.lay l).link l.head? l none := by
  induction l generalizing f with
  | nil => rfl
  | cons a l ih =>
      cases l with
      | nil => exact ⟨rfl, link_set_eoc f a⟩
      | cons b l =>
          rw [List.nodup_cons] at nodup
          have rest := ih (f.setFatEntry a b) nodup.2 fun x member => small x (List.mem_cons_of_mem a member)
          refine ⟨rfl, ?_⟩
          have next : (f.lay (a :: b :: l)).link a = some b := by
            rw [lay_cons, link_congr (entry_lay _ nodup.1), link_set_self f a (small b (by simp))]
          rw [next]
          exact rest

/-! ## Zeroing a chain -/

def clear (f : Fat) : List Nat → Fat
  | [] => f
  | a :: l => clear (f.setFatEntry a fatFreeCluster) l

theorem clear_cons (f : Fat) (a : Nat) (l : List Nat) : f.clear (a :: l) = (f.setFatEntry a fatFreeCluster).clear l := rfl

@[simp] theorem totalClusters_clear (f : Fat) (l : List Nat) : (f.clear l).totalClusters = f.totalClusters := by
  induction l generalizing f with
  | nil => rfl
  | cons a l ih => rw [clear_cons, ih, totalClusters_setFatEntry]

theorem entry_clear (f : Fat) (outside : c ∉ l) : (f.clear l).entry c = f.entry c := by
  induction l generalizing f with
  | nil => rfl
  | cons a l ih =>
      rw [List.mem_cons, not_or] at outside
      rw [clear_cons, ih _ outside.2, entry_setFatEntry_ne outside.1]

theorem getFatEntry_clear (f : Fat) (member : c ∈ l) : (f.clear l).getFatEntry c = fatFreeCluster := by
  induction l generalizing f with
  | nil => cases member
  | cons a l ih =>
      by_cases later : c ∈ l
      · exact ih _ later
      · rcases List.mem_cons.mp member with rfl | h
        · rw [clear_cons, getFatEntry_congr (entry_clear _ later)]
          exact getFatEntry_set_self f c (by decide)
        · exact absurd h later

theorem freeLoop_spec {current : Nat} (start : l.head? = some current) (seg : Seg f.link l.head? l none)
    (small : ∀ a ∈ l, a < fatBadCluster) {n : Nat} (enough : l.length < n) (free : BitVec 32) :
    ∃ last, last ≥ fatEoc ∧ freeLoop n f current free = some (f.clear l, last, free + BitVec.ofNat 32 l.length) := by
  induction l generalizing f current n free with
  | nil => cases start
  | cons a l ih =>
      cases start
      obtain ⟨n, rfl⟩ : ∃ k, n = k + 1 := ⟨n - 1, by simp at enough; omega⟩
      have low := small a List.mem_cons_self
      have fresh := (List.nodup_cons.mp seg.nodup).1
      have goes : a < fatEoc ∧ a ≠ fatBadCluster := by
        simp only [fatEoc, fatBadCluster] at low ⊢
        omega
      rw [freeLoop, if_pos goes, clear_cons]
      -- the links of the rest do not pass through `a`
      have rest : Seg (f.setFatEntry a fatFreeCluster).link (f.link a) l none :=
        seg.2.congr fun b member => link_congr (entry_setFatEntry_ne (by rintro rfl; exact fresh member) f _)
      have count : free + 1#32 + BitVec.ofNat 32 l.length = free + BitVec.ofNat 32 (a :: l).length := by
        rw [List.length_cons, BitVec.add_assoc, Nat.add_comm, BitVec.ofNat_add]
      cases l with
      | nil =>
          have ends : f.link a = none := seg.2
          have high : ¬ f.getFatEntry a < fatEoc := by
            intro below
            rw [link, if_pos below] at ends
            cases ends
          obtain ⟨n, rfl⟩ : ∃ k, n = k + 1 := ⟨n - 1, by simp at enough; omega⟩
          refine ⟨f.getFatEntry a, by omega, ?_⟩
          rw [freeLoop, if_neg (fun h => high h.1)]
          rfl
      | cons b l =>
          have next : f.link a = some b := seg.2.1
          have value : f.getFatEntry a = b := by
            unfold link at next
            split_ifs at next
            exact Option.some.inj next
          rw [next] at rest
          rw [value]
          have done := ih (f := f.setFatEntry a fatFreeCluster) rfl rest
            (fun x member => small x (List.mem_cons_of_mem a member)) (n := n)
            (by simp only [List.length_cons] at enough ⊢; omega) (free + 1#32)
          rw [count] at done
          exact done

/-! ## The search for free clusters -/

/-- The zero entries among the `n` clusters from `first` on. -/
def freeFrom (f : Fat) (n first : Nat) : List Nat :=
  (List.range' first n).filter fun c => f.getFatEntry c = fatFreeCluster

theorem freeFrom_succ (f : Fat) (n first : Nat) :
    f.freeFrom (n + 1) first =
      if f.getFatEntry first = fatFreeCluster then first :: f.freeFrom n (first + 1)
      else f.freeFrom n (first + 1) := by
  rw [freeFrom, List.range'_succ, List.filter_cons]
  simp only [decide_eq_true_eq]
  rfl

theorem freeFrom_set {k i : Nat} (before : k < i) (f : Fat) (val n : Nat) :
    (f.setFatEntry k val).freeFrom n i = f.freeFrom n i := by
  refine List.filter_congr fun c member => ?_
  have : c ≠ k := by
    have := (List.mem_range'_1.mp member).1
    omega
  rw [getFatEntry_set_ne this]

theorem mem_freeFrom {n first : Nat} :
    c ∈ f.freeFrom n first ↔ (first ≤ c ∧ c < first + n) ∧ f.getFatEntry c = fatFreeCluster := by
  simp [freeFrom, List.mem_filter, List.mem_range'_1]

theorem allocateLoop_done (fuel : Nat) (f : Fat) (current start prev : Nat) (free : BitVec 32) :
    allocateLoop fuel f 0 current start prev free = some (f, start, current, free) := by
  cases fuel <;> simp [allocateLoop]

theorem sub_one_sub (free : BitVec 32) (n : Nat) :
    free - 1#32 - BitVec.ofNat 32 n = free - BitVec.ofNat 32 (n + 1) := by
  rw [BitVec.ofNat_add]
  ring

theorem allocateLoop_linked {k n c start p : Nat} (started : start ≠ 0) (after : p < c)
    (enough : n + 1 ≤ (f.freeFrom k c).length) (free : BitVec 32) :
    ∃ g last, allocateLoop k f (n + 1) c start p free =
        some (g, start, last + 1, free - BitVec.ofNat 32 (n + 1)) ∧
      last ∈ (f.freeFrom k c).take (n + 1) ∧
      g.setFatEntry last fatEoc = f.lay (p :: (f.freeFrom k c).take (n + 1)) := by
  induction k generalizing f n c p free with
  | zero => simp [freeFrom] at enough
  | succ k ih =>
      rw [allocateLoop, if_neg (by omega)]
      rw [freeFrom_succ] at enough ⊢
      by_cases zero : f.getFatEntry c = fatFreeCluster
      · rw [if_pos zero] at enough
        simp only [zero, if_true, started, if_false, Nat.add_sub_cancel]
        cases n with
        | zero =>
            refine ⟨f.setFatEntry p c, c, ?_, by simp, by simp [lay]⟩
            rw [allocateLoop_done]
        | succ n =>
            have rest := freeFrom_set (k := p) (i := c + 1) (by omega) f c k
            rw [List.length_cons] at enough
            obtain ⟨g, last, loop, member, laid⟩ := ih (f := f.setFatEntry p c) (n := n)
              (c := c + 1) (p := c) (by omega) (by rw [rest]; omega) (free - 1#32)
            rw [rest] at member laid
            rw [sub_one_sub] at loop
            exact ⟨g, last, loop, List.mem_cons_of_mem _ member, laid⟩
      · rw [if_neg zero] at enough
        simp only [zero, if_false]
        exact ih (by omega) enough free

theorem allocateLoop_first {fuel n current : Nat} (data : current ≠ 0)
    (enough : n + 1 ≤ (f.freeFrom fuel current).length) (free : BitVec 32) :
    ∃ g start last, allocateLoop fuel f (n + 1) current 0 0 free =
        some (g, start, last + 1, free - BitVec.ofNat 32 (n + 1)) ∧
      ((f.freeFrom fuel current).take (n + 1)).head? = some start ∧
      last ∈ (f.freeFrom fuel current).take (n + 1) ∧
      g.setFatEntry last fatEoc = f.lay ((f.freeFrom fuel current).take (n + 1)) := by
  induction fuel generalizing current free with
  | zero => simp [freeFrom] at enough
  | succ fuel ih =>
      rw [allocateLoop, if_neg (by omega)]
      rw [freeFrom_succ] at enough ⊢
      by_cases zero : f.getFatEntry current = fatFreeCluster
      · rw [if_pos zero] at enough
        simp only [zero, if_true, Nat.add_sub_cancel]
        cases n with
        | zero =>
            refine ⟨f, current, current, ?_, by simp, by simp, by simp [lay]⟩
            rw [allocateLoop_done]
        | succ n =>
            rw [List.length_cons] at enough
            obtain ⟨g, last, loop, member, laid⟩ := allocateLoop_linked (f := f) (k := fuel) (n := n)
              (c := current + 1) data (Nat.lt_succ_self current) (by omega) (free - 1#32)
            rw [sub_one_sub] at loop
            exact ⟨g, current, last, loop, by simp, List.mem_cons_of_mem _ member, laid⟩
      · rw [if_neg zero] at enough
        simp only [zero, if_false]
        exact ih (by omega) enough free

/-- The zero entries that an allocation can find. -/
def available (f : Fat) : List Nat :=
  f.freeFrom (f.totalClusters + 2 - f.availableClustersStart) f.availableClustersStart

theorem available_free (hint : 2 ≤ f.availableClustersStart) (member : c ∈ f.available) : f.Free c := by
  obtain ⟨⟨low, high⟩, zero⟩ := mem_freeFrom.mp member
  exact ⟨⟨by omega, by omega⟩, zero⟩

/-- What `fat32_allocate_clusters` does with the clusters `taken`. -/
structure Takes (f g : Fat) (taken : List Nat) : Prop where
  free : ∀ c ∈ taken, f.Free c
  nodup : taken.Nodup
  laid : ∃ hint, 2 ≤ hint ∧
    g = (f.lay taken).withFsinfo hint (f.freeClusterCount - BitVec.ofNat 32 taken.length)

theorem allocate_takes (hint : 2 ≤ f.availableClustersStart) {n : Nat} (pos : 1 ≤ n) (enough : n ≤ f.available.length) :
    ∃ start g, f.fat32AllocateClusters n = some (start, g) ∧ (f.available.take n).head? = some start ∧
      f.Takes g (f.available.take n) ∧ g.availableClustersStart ∈ f.available.take n := by
  obtain ⟨n, rfl⟩ : ∃ k, n = k + 1 := ⟨n - 1, by omega⟩
  obtain ⟨g, start, last, loop, head, member, laid⟩ :=
    allocateLoop_first (f := f) (by omega) enough f.freeClusterCount
  have free : ∀ c ∈ f.available.take (n + 1), f.Free c := fun c h => available_free hint (List.mem_of_mem_take h)
  have length : (f.available.take (n + 1)).length = n + 1 := by
    rw [List.length_take]
    omega
  have nonzero : start ≠ 0 := by
    have := (free start (List.mem_of_mem_head? head)).data.1
    omega
  refine ⟨start, (f.lay (f.available.take (n + 1))).withFsinfo last (f.freeClusterCount - BitVec.ofNat 32 (n + 1)), ?_, head,
    ⟨free, ?_, last, (free last member).data.1, ?_⟩, member⟩
  · simp only [fat32AllocateClusters, loop, Option.bind_eq_bind, Option.bind_some, Nat.add_sub_cancel, nonzero,
      if_false, laid]
    rfl
  · exact ((List.nodup_range').filter _).sublist (List.take_sublist _ _)
  · rw [length]

theorem allocate_spec (hint : 2 ≤ f.availableClustersStart) {n : Nat} (pos : 1 ≤ n) (enough : n ≤ f.available.length) :
    ∃ taken start g, f.fat32AllocateClusters n = some (start, g) ∧ taken.length = n ∧
      taken.head? = some start ∧ f.Takes g taken := by
  obtain ⟨start, g, done, head, takes, -⟩ := allocate_takes hint pos enough
  exact ⟨_, start, g, done, List.length_take_of_le enough, head, takes⟩

end Kerosene.Fat32.Fat
