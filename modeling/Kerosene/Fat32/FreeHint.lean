import Kerosene.Fat32.ChainRun
import Mathlib.Tactic.IntervalCases

/-!
# Where the search for free clusters starts
-/

namespace Kerosene.Fat32.Fat
open Lib
variable {f g : Fat} {a c h n : Nat} {l : List Nat} {chains rest : List (List Nat)}

/-- No free cluster lies below `available_clusters_start`. -/
def LowHint (f : Fat) : Prop := ∀ c, f.Free c → f.availableClustersStart ≤ c

-- the first cluster that a call frees
def freesFrom (f : Fat) : ChainCall → Option Nat
  | .cut c => f.link c
  | .free h => some h
  | _ => none

/-- What a call frees is not below both its first cluster and `available_clusters_start`. -/
def KeepsHint (f : Fat) (call : ChainCall) : Prop :=
  ∀ h l, f.freesFrom call = some h → Seg f.link (some h) l none → ∀ c ∈ l, min h f.availableClustersStart ≤ c

/-! ## Allocating -/

theorem freeFrom_sorted (f : Fat) (n first : Nat) : (f.freeFrom n first).Pairwise (· < ·) :=
  (List.pairwise_lt_range' (s := first) (n := n)).sublist List.filter_sublist

theorem LowHint.available (low : f.LowHint) (free : f.Free c) : c ∈ f.available := by
  have above := low c free
  have inside := free.data.2
  exact mem_freeFrom.mpr ⟨⟨above, by omega⟩, free.entry⟩

theorem allocate_hint (volume : f.Volume) (low : f.LowHint) (pos : 1 ≤ n) (enough : n ≤ f.available.length)
    {start : Nat} (done : f.fat32AllocateClusters n = some (start, g)) : g.LowHint := by
  obtain ⟨n, rfl⟩ : ∃ k, n = k + 1 := ⟨n - 1, by omega⟩
  have first := volume.hint
  obtain ⟨g₁, start₁, last, loop, head, member, laid⟩ :=
    allocateLoop_first (f := f) (by omega) enough f.freeClusterCount
  have inside : last ∈ f.available.take (n + 1) := member
  have free : ∀ c ∈ f.available.take (n + 1), f.Free c := fun c h => available_free first (List.mem_of_mem_take h)
  have nonzero : start₁ ≠ 0 := by
    have := (free start₁ (List.mem_of_mem_head? head)).data.1
    omega
  have result : g = (f.lay (f.available.take (n + 1))).withFsinfo last (f.freeClusterCount - BitVec.ofNat 32 (n + 1)) := by
    simp only [fat32AllocateClusters, loop, Option.bind_eq_bind, Option.bind_some, Nat.add_sub_cancel, nonzero, if_false,
      laid] at done
    cases done
    rfl
  have nodup : (f.available.take (n + 1)).Nodup :=
    ((freeFrom_sorted f _ _).imp (fun lt => lt.ne)).sublist (List.take_sublist _ _)
  intro c freeC
  rw [result] at freeC ⊢
  have outside : c ∉ f.available.take (n + 1) := by
    intro taken
    rcases getFatEntry_lay f nodup (fun a member => volume.belowEoc (free a member).data) taken with next | ends
    · have := (free _ next).data.1
      have zero : (f.lay (f.available.take (n + 1))).getFatEntry c = 0 := freeC.entry
      omega
    · have zero : (f.lay (f.available.take (n + 1))).getFatEntry c = fatFreeCluster := freeC.entry
      rw [ends] at zero
      cases zero
  have before : f.Free c := by
    refine ⟨?_, (getFatEntry_congr (entry_lay f outside)).symm.trans freeC.entry⟩
    have data := freeC.data
    rwa [Data, totalClusters_withFsinfo, totalClusters_lay] at data
  have split := low.available before
  have sorted := freeFrom_sorted f (f.totalClusters + 2 - f.availableClustersStart) f.availableClustersStart
  rw [← available, ← List.take_append_drop (n + 1) f.available, List.pairwise_append] at sorted
  rw [← List.take_append_drop (n + 1) f.available, List.mem_append] at split
  exact (sorted.2.2 last inside c (split.resolve_left outside)).le

/-! ## Freeing -/

theorem freeClusterChain_hint (done : f.freeClusterChain h = some (.success, g)) :
    g.availableClustersStart = min h f.availableClustersStart := by
  simp only [freeClusterChain, Option.bind_eq_bind, Option.bind_eq_some_iff] at done
  obtain ⟨⟨table, last, free⟩, -, done⟩ := done
  dsimp only at done
  by_cases isBad : last = fatBadCluster
  · rw [if_pos isBad] at done
    cases done
  · rw [if_neg isBad] at done
    cases done
    rw [min_def]
    change (if h < f.availableClustersStart then h else f.availableClustersStart) = _
    split_ifs <;> omega

theorem lowHint_iff (low : f.LowHint) (hint : g.availableClustersStart = min h f.availableClustersStart)
    (free : ∀ c, g.Free c ↔ f.Free c ∨ c ∈ l) : g.LowHint ↔ ∀ c ∈ l, min h f.availableClustersStart ≤ c := by
  constructor
  · intro lowG c member
    rw [← hint]
    exact lowG c ((free c).mpr (.inr member))
  · intro above c freeC
    rw [hint]
    rcases (free c).mp freeC with old | freed
    · exact (min_le_right _ _).trans (low c old)
    · exact above c freed

theorem free_clear {hint : Nat} {count : BitVec 32} (used : ∀ c ∈ l, f.InUse c) (c : Nat) :
    ((f.clear l).withFsinfo hint count).Free c ↔ f.Free c ∨ c ∈ l := by
  have total : ((f.clear l).withFsinfo hint count).totalClusters = f.totalClusters := totalClusters_clear f l
  by_cases member : c ∈ l
  · refine ⟨fun _ => .inr member, fun _ => ⟨?_, getFatEntry_clear f member⟩⟩
    rw [Data, total]
    exact (used c member).data
  · have entry : ((f.clear l).withFsinfo hint count).getFatEntry c = f.getFatEntry c :=
      getFatEntry_congr (entry_clear f member)
    constructor
    · intro free
      refine .inl ⟨?_, entry.symm.trans free.entry⟩
      have data := free.data
      rwa [Data, total] at data
    · rintro (free | inside)
      · refine ⟨?_, entry.trans free.entry⟩
        rw [Data, total]
        exact free.data
      · exact absurd inside member

theorem free_setFatEntry {cluster val : Nat} (small : val < 2 ^ 28) (used : val ≠ fatFreeCluster) (c : Nat) :
    (f.setFatEntry cluster val).Free c ↔ f.Free c ∧ c ≠ cluster := by
  by_cases same : c = cluster
  · subst same
    refine ⟨fun free => absurd ?_ used, fun free => absurd rfl free.2⟩
    rw [← getFatEntry_set_self f c small]
    exact free.entry
  · have entry := getFatEntry_set_ne same f val
    exact ⟨fun free => ⟨⟨free.data, entry.symm.trans free.entry⟩, same⟩, fun free => ⟨free.1.data, entry.trans free.1.entry⟩⟩

/-! ## Each call -/

theorem exec_hint_iff (volume : f.Volume) (part : f.Partition chains) (low : f.LowHint) {call : ChainCall}
    (legal : call.Legal f chains) (done : f.exec call = some g) : g.LowHint ↔ f.KeepsHint call := by
  cases call with
  | allocate n =>
      obtain ⟨⟨start, g'⟩, allocated, rfl⟩ := Option.map_eq_some_iff.mp done
      exact ⟨(fun _ h l frees => by cases frees), fun _ => allocate_hint volume low legal.1 legal.2 allocated⟩
  | expand last n =>
      obtain ⟨⟨pos, enough⟩, l, listed, named⟩ := legal
      obtain ⟨taken, start, g₁, allocated, -, head, takes⟩ := allocate_spec volume.hint pos enough
      have data := (takes.free start (List.mem_of_mem_head? head)).data
      have small : start < 2 ^ 28 := by
        have := volume.below data
        simp only [fatBadCluster] at this
        omega
      have nonzero : start ≠ 0 := by
        have := data.1
        omega
      have result : g = g₁.setFatEntry last start := by
        simp only [exec, expandClusterChain, allocated, Option.bind_eq_bind, Option.bind_some, nonzero, if_false] at done
        cases done
        rfl
      have lowG : g₁.LowHint := allocate_hint volume low pos enough allocated
      refine ⟨(fun _ h l frees => by cases frees), fun _ c free => ?_⟩
      rw [result] at free ⊢
      exact lowG c ((free_setFatEntry small nonzero c).mp free).1
  | free h =>
      obtain ⟨l, listed, named⟩ := legal
      have front := part.perm (List.perm_cons_erase listed)
      have seg := front.links l List.mem_cons_self
      have used : ∀ c ∈ l, f.InUse c := fun c member => front.member member
      obtain ⟨hint, -, freed⟩ := freeClusterChain_spec volume named seg used
      rw [exec, freed] at done
      cases done
      rw [lowHint_iff low (freeClusterChain_hint freed) (free_clear used)]
      have start : l.head? = some h := named
      rw [start] at seg
      constructor
      · intro above h' l' frees seg' c member
        cases frees
        rw [seg'.unique seg] at member
        exact above c member
      · exact fun keeps => keeps h l rfl seg
  | cut c =>
      obtain ⟨l, listed, named⟩ := legal
      have front := part.perm (List.perm_cons_erase listed)
      obtain ⟨k, tail, rfl⟩ := List.append_of_mem named
      have link := (front.links _ List.mem_cons_self).split.2
      cases tail with
      | nil =>
          -- `c` is the end already
          have ends : f.link c = none := link
          have high : f.getFatEntry c ≥ fatEoc := by
            by_contra below
            rw [Fat.link, if_pos (not_le.mp below)] at ends
            cases ends
          rw [exec, cutClusterChain, if_pos high] at done
          cases done
          refine ⟨fun _ h l frees => ?_, fun _ => low⟩
          have frees' : f.link c = some h := frees
          rw [ends] at frees'
          cases frees'
      | cons b tail =>
          have next : f.link c = some b := link.1
          have value : f.getFatEntry c = b ∧ b < fatEoc := by
            unfold Fat.link at next
            split_ifs at next with below
            exact ⟨Option.some.inj next, Option.some.inj next ▸ below⟩
          have seg : Seg f.link (some b) (b :: tail) none := by rwa [next] at link
          have used : ∀ a ∈ k ++ c :: b :: tail, f.InUse a := fun a member => front.member member
          have usedTail : ∀ a ∈ b :: tail, f.InUse a := fun a member => used a (by simp at member ⊢; tauto)
          have notBad : b ≠ fatBadCluster := (volume.below (usedTail b List.mem_cons_self).data).ne
          have below : ¬ b ≥ fatEoc := not_le.mpr value.2
          have outside : c ∉ b :: tail :=
            (List.nodup_cons.mp (List.nodup_append'.mp (front.links _ List.mem_cons_self).nodup).2.1).1
          obtain ⟨hint, -, freed⟩ := freeClusterChain_spec volume (l := b :: tail) rfl seg usedTail
          have result : g = ((f.clear (b :: tail)).withFsinfo hint
              (f.freeClusterCount + BitVec.ofNat 32 (b :: tail).length)).setFatEntry c fatEoc := by
            simp only [exec, cutClusterChain, value.1, below, notBad, freed, if_false, Option.bind_eq_bind, Option.bind_some,
              ne_eq, not_true] at done
            cases done
            rfl
          have free : ∀ a, g.Free a ↔ f.Free a ∨ a ∈ b :: tail := by
            intro a
            rw [result, free_setFatEntry (by decide) (by decide), free_clear usedTail]
            refine ⟨fun both => both.1, fun either => ⟨either, ?_⟩⟩
            rintro rfl
            rcases either with isFree | inside
            · exact (used a (by simp)).notFree isFree.entry
            · exact outside inside
          have hintG : g.availableClustersStart = min b f.availableClustersStart := by
            have hinted := freeClusterChain_hint freed
            rw [result]
            exact hinted
          rw [lowHint_iff low hintG free]
          constructor
          · intro above h' l' frees seg' a member
            have same : some h' = some b := frees.symm.trans next
            cases same
            rw [seg'.unique seg] at member
            exact above a member
          · exact fun keeps => keeps b (b :: tail) next seg

/-! ## Runs -/

/-- The calls of `chainStore` that free nothing below the hint they leave. -/
def hintedStore : Machine Fat ChainCall where
  Legal f call := chainStore.Legal f call ∧ f.KeepsHint call
  step := exec

/-- When every call of a run meets the condition, no free cluster is ever below the hint, so that a search
from it finds all of them; and the first call that does not meet it leaves a free cluster behind. -/
theorem no_free_cluster_forgotten (start : Fat) (store : start.Store) (low : start.LowHint) (f : Fat)
    (run : hintedStore.Reaches start f) :
    f.LowHint ∧ (∀ c, f.Free c → c ∈ f.available) ∧
      ∀ chains call, f.Partition chains → call.Legal f chains →
        ∃ g, f.exec call = some g ∧ (g.LowHint ↔ f.KeepsHint call) := by
  have kept : f.Store ∧ f.LowHint := by
    refine run.invariant (I := fun f => f.Store ∧ f.LowHint) ?_ ⟨store, low⟩
    rintro f call g ⟨store, low⟩ ⟨⟨chains, part, legal⟩, keeps⟩ step
    obtain ⟨g', taken, done, steps⟩ := exec_steps store.volume part legal
    have same : some g' = some g := done.symm.trans step
    cases same
    exact ⟨steps.store, (exec_hint_iff store.volume part low legal done).mpr keeps⟩
  refine ⟨kept.2, fun c free => kept.2.available free, fun chains call part legal => ?_⟩
  obtain ⟨g, taken, done, -⟩ := exec_steps kept.1.volume part legal
  exact ⟨g, done, exec_hint_iff kept.1.volume part kept.2 legal done⟩

theorem no_free_cluster_forgotten_one_file :
    oneFile.LowHint ∧ ∃ g, oneFile.exec (.free 2) = some g ∧ (g.LowHint ↔ oneFile.KeepsHint (.free 2)) := by
  have low : oneFile.LowHint := fun c free => free.data.1
  have law := no_free_cluster_forgotten oneFile ⟨⟨by decide, by decide⟩, [[2, 3]], oneFile_partition⟩ low oneFile (.refl _)
  exact ⟨law.1, law.2.2 [[2, 3]] (.free 2) oneFile_partition ⟨[2, 3], by simp, rfl⟩⟩

-- a file whose second cluster, 2, was reused, and another file behind it
def reused : Fat where
  entry c := if c = 3 then 2#32 else if c = 2 ∨ c = 4 then 0x0fffffff#32 else 0#32
  totalClusters := 5
  availableClustersStart := 4
  freeClusterCount := 2#32

theorem reused_partition : reused.Partition [[3, 2], [4]] := by
  refine ⟨fun l listed => ?_, by decide, fun c => ⟨fun member => ?_, fun used => ?_⟩⟩
  · simp only [List.mem_cons, List.not_mem_nil, or_false] at listed
    rcases listed with rfl | rfl
    · exact ⟨rfl, by decide, show reused.link 2 = none by decide⟩
    · exact ⟨rfl, show reused.link 4 = none by decide⟩
  · have : c = 3 ∨ c = 2 ∨ c = 4 := by simpa using member
    rcases this with rfl | rfl | rfl <;> exact ⟨⟨by decide, by decide⟩, by decide, by decide⟩
  · by_contra outside
    have : c ≠ 3 ∧ c ≠ 2 ∧ c ≠ 4 := by simpa using outside
    apply used.notFree
    simp [getFatEntry, reused, this, fatFreeCluster]

theorem reused_lowHint : reused.LowHint := by
  intro c free
  by_contra below
  have data := free.data.1
  have entry := free.entry
  have small : c < 4 := not_le.mp below
  interval_cases c
  · revert entry
    decide
  · revert entry
    decide

/-- Freeing the chain 3, 2 leaves the hint at 3, above the free cluster 2. -/
theorem free_cluster_forgotten :
    reused.Store ∧ reused.LowHint ∧ ∃ g, chainStore.Reaches reused g ∧ g.Free 2 ∧ g.availableClustersStart = 3 ∧ 2 ∉ g.available := by
  have store : reused.Store := ⟨⟨by decide, by decide⟩, _, reused_partition⟩
  have moves : (reused.exec (.free 3)).any (fun g => g.totalClusters = 5 ∧ g.getFatEntry 2 = fatFreeCluster ∧
      g.availableClustersStart = 3 ∧ 2 ∉ g.available) = true := by decide
  obtain ⟨g, step, checked⟩ := (Option.any_eq_true ..).mp moves
  obtain ⟨total, entry, hint, missing⟩ := of_decide_eq_true checked
  refine ⟨store, reused_lowHint, g, .snoc (.refl _) (i := .free 3) ⟨_, reused_partition, [3, 2], by simp, rfl⟩ step,
    ⟨⟨by decide, ?_⟩, entry⟩, hint, missing⟩
  rw [total]
  decide

end Kerosene.Fat32.Fat
