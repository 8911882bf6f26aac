import Kerosene.Fat32.FreeHint
import Mathlib.Data.List.Sort

/-!
# Growing a chain

`expand_cluster_chain` at any cluster: what it takes, what it leaves, and that it returns only when it
found enough.
-/

namespace Kerosene.Fat32.Fat
open Lib
variable {f g : Fat} {c e n new : Nat} {l taken : List Nat} {chains rest : List (List Nat)}

/-- From `f` to `g`, cluster `e` is linked to the new clusters `taken`. -/
structure Grows (f g : Fat) (e : Nat) (taken : List Nat) : Prop where
  free : ∀ c ∈ taken, f.Free c
  nodup : taken.Nodup
  total : g.totalClusters = f.totalClusters
  hint : 2 ≤ g.availableClustersStart
  same : ∀ c, c ≠ e → c ∉ taken → g.entry c = f.entry c
  links : Seg g.link (some e) (e :: taken) none
  used : ∀ c ∈ e :: taken, g.getFatEntry c ≠ fatFreeCluster ∧ g.getFatEntry c ≠ fatBadCluster

/-! ## The search returns only when it found enough -/

theorem allocateLoop_enough {fuel current start prev : Nat} {free : BitVec 32} {r : Fat × Nat × Nat × BitVec 32}
    (after : prev < current + 1) (done : allocateLoop fuel f n current start prev free = some r) :
    n ≤ (f.freeFrom fuel current).length := by
  induction fuel generalizing f n current start prev free with
  | zero =>
      rw [allocateLoop] at done
      split_ifs at done with zero
      omega
  | succ fuel ih =>
      rw [allocateLoop] at done
      by_cases zero : n = 0
      · omega
      rw [if_neg zero] at done
      rw [freeFrom_succ]
      by_cases isFree : f.getFatEntry current = fatFreeCluster
      · rw [if_pos isFree] at done
        rw [if_pos isFree, List.length_cons]
        by_cases first : start = 0
        · rw [if_pos first] at done
          have := ih (by omega) done
          omega
        · rw [if_neg first] at done
          have := ih (by omega) done
          rw [freeFrom_set (by omega)] at this
          omega
      · rw [if_neg isFree] at done
        rw [if_neg isFree]
        exact ih (by omega) done

theorem expand_enough (done : f.expandClusterChain e n = some (new, g)) : n ≤ f.available.length := by
  simp only [expandClusterChain, fat32AllocateClusters, Option.bind_eq_bind, Option.bind_eq_some_iff] at done
  obtain ⟨-, ⟨found, loop, -⟩, -⟩ := done
  exact allocateLoop_enough (by omega) loop

/-! ## What it does -/

theorem Takes.grows {g₁ : Fat} (volume : f.Volume) (takes : f.Takes g₁ taken) (head : taken.head? = some new)
    (used : f.InUse e) : f.Grows (g₁.setFatEntry e new) e taken := by
  have moves := takes.moves volume
  have first : new ∈ taken := List.mem_of_mem_head? head
  have data := (takes.free new first).data
  have small : new < 2 ^ 28 := by
    have := volume.below data
    simp only [fatBadCluster] at this
    omega
  have outside : e ∉ taken := fun took => used.notFree' (takes.free e took)
  have value : (g₁.setFatEntry e new).getFatEntry e = new := getFatEntry_set_self g₁ e small
  have others : ∀ c, c ≠ e → (g₁.setFatEntry e new).getFatEntry c = g₁.getFatEntry c := fun c other =>
    getFatEntry_set_ne other g₁ new
  refine ⟨takes.free, takes.nodup, moves.total, moves.hint, fun c other notTaken => ?_, ⟨rfl, ?_⟩, fun c member => ?_⟩
  · rw [entry_setFatEntry_ne other, takes.same notTaken]
  · rw [link_set_self g₁ e (volume.belowEoc data), ← head]
    refine moves.links.congr fun c member => link_congr (entry_setFatEntry_ne ?_ g₁ new)
    rintro rfl
    exact outside member
  · by_cases isE : c = e
    · subst isE
      rw [value]
      refine ⟨?_, (volume.below data).ne⟩
      have := data.1
      simp only [fatFreeCluster]
      omega
    · have inside : c ∈ taken := (List.mem_cons.mp member).resolve_left isE
      have inUse := takes.inUse volume inside
      rw [others c isE]
      exact ⟨inUse.notFree, inUse.notBad⟩

theorem expand_takes (volume : f.Volume) (pos : 1 ≤ n) (used : f.InUse e) (done : f.expandClusterChain e n = some (new, g)) :
    (f.available.take n).head? = some new ∧ f.Grows g e (f.available.take n) ∧
      g.availableClustersStart ∈ f.available.take n := by
  obtain ⟨start, g₁, done', head, takes, hint⟩ := allocate_takes volume.hint pos (expand_enough done)
  have nonzero : start ≠ 0 := by
    have := (takes.free start (List.mem_of_mem_head? head)).data.1
    omega
  simp only [expandClusterChain, done', Option.bind_eq_bind, Option.bind_some, nonzero, if_false] at done
  cases done
  exact ⟨head, takes.grows volume head used, hint⟩

theorem expand_spec (volume : f.Volume) (pos : 1 ≤ n) (enough : n ≤ f.available.length) (used : f.InUse e) :
    ∃ taken new g, f.expandClusterChain e n = some (new, g) ∧ taken.length = n ∧ taken.head? = some new ∧ new ≠ 0 ∧
      f.Grows g e taken := by
  obtain ⟨taken, new, g₁, done, length, head, takes⟩ := allocate_spec volume.hint pos enough
  have nonzero : new ≠ 0 := by
    have := (takes.free new (List.mem_of_mem_head? head)).data.1
    omega
  refine ⟨taken, new, g₁.setFatEntry e new, ?_, length, head, nonzero, takes.grows volume head used⟩
  simp only [expandClusterChain, done, Option.bind_eq_bind, Option.bind_some, nonzero, if_false]
  rfl

theorem expand_grows (volume : f.Volume) (pos : 1 ≤ n) (used : f.InUse e)
    (done : f.expandClusterChain e n = some (new, g)) :
    ∃ taken, taken.length = n ∧ taken.head? = some new ∧ new ≠ 0 ∧ f.Grows g e taken := by
  obtain ⟨taken, new', g', done', length, head, nonzero, grows⟩ :=
    expand_spec volume pos (expand_enough done) used
  obtain ⟨rfl, rfl⟩ := Prod.mk.inj (Option.some.inj (done.symm.trans done'))
  exact ⟨taken, length, head, nonzero, grows⟩

/-! ## The store afterwards -/

section Grows
variable (grows : f.Grows g e taken)
include grows

theorem Grows.volume (volume : f.Volume) : g.Volume :=
  ⟨by rw [grows.total]; exact volume.fits, grows.hint⟩

theorem Grows.inUse (used : f.InUse e) (member : c ∈ e :: taken) : g.InUse c := by
  have data : f.Data c := by
    rcases List.mem_cons.mp member with rfl | inside
    · exact used.data
    · exact (grows.free c inside).data
  refine ⟨?_, (grows.used c member).1, (grows.used c member).2⟩
  rw [Data, grows.total]
  exact data

theorem Grows.notFree (used : f.InUse c) (inUse : f.InUse e) : g.InUse c := by
  by_cases isE : c = e
  · subst isE
    exact grows.inUse inUse List.mem_cons_self
  · exact used.congr grows.total (grows.same c isE fun took => used.notFree' (grows.free c took))

theorem Grows.isFree (inUse : f.InUse e) (free : g.Free c) : f.Free c := by
  have notE : c ≠ e := by
    rintro rfl
    exact (grows.inUse inUse List.mem_cons_self).notFree' free
  have notTaken : c ∉ taken := fun took => (grows.inUse inUse (List.mem_cons_of_mem e took)).notFree' free
  have entry := grows.same c notE notTaken
  refine ⟨?_, (getFatEntry_congr entry).symm.trans free.entry⟩
  have data := free.data
  rwa [Data, grows.total] at data

theorem Grows.split {k tail : List Nat} (part : f.Partition ((k ++ e :: tail) :: rest)) :
    g.Partition ((k ++ e :: taken) :: tail :: rest) := by
  have used : ∀ c ∈ k ++ e :: tail, f.InUse c := fun c member => part.member member
  have isUsed : f.InUse e := used e (by simp)
  have whole := part.links _ List.mem_cons_self
  obtain ⟨front, back, apart⟩ := List.nodup_append'.mp part.nodup
  obtain ⟨frontNodup, tailNodup, before⟩ := List.nodup_append'.mp front
  obtain ⟨notTail, tailNodup⟩ := List.nodup_cons.mp tailNodup
  have inUse : ∀ c ∈ (k ++ e :: tail) ++ rest.flatten, f.InUse c := fun c member => (part.covers c).mp member
  have kept : ∀ c ∈ (k ++ e :: tail) ++ rest.flatten, c ≠ e → g.entry c = f.entry c := fun c member other =>
    grows.same c other fun took => (inUse c member).notFree' (grows.free c took)
  have notTaken : ∀ c ∈ (k ++ e :: tail) ++ rest.flatten, c ∉ taken := fun c member took =>
    (inUse c member).notFree' (grows.free c took)
  have perm : ((k ++ e :: taken) :: tail :: rest).flatten.Perm (taken ++ ((k ++ e :: tail) :: rest).flatten) := by
    rw [List.perm_iff_count]
    intro c
    simp only [List.flatten_cons, List.count_append, List.count_cons]
    omega
  refine ⟨fun l listed => ?_, ?_, fun c => ?_⟩
  · rcases List.mem_cons.mp listed with rfl | listed
    · have heads : (k ++ e :: taken).head? = (k ++ e :: tail).head? := by
        cases k <;> rfl
      obtain ⟨first, left, here⟩ := seg_append.mp whole
      rw [heads]
      refine seg_append.mpr ⟨first, left.congr fun c member => link_congr (kept c (by simp [member]) ?_), ?_⟩
      · rintro rfl
        exact before member List.mem_cons_self
      · rw [here.1]
        exact grows.links
    · rcases List.mem_cons.mp listed with rfl | old
      · have seg := whole.split.2
        rw [seg.head] at seg
        refine seg.congr fun c member => link_congr (kept c (by simp [member]) ?_)
        rintro rfl
        exact notTail member
      · refine (part.links l (List.mem_cons_of_mem _ old)).congr fun c member => link_congr ?_
        have inside := List.mem_flatten_of_mem old member
        refine kept c (List.mem_append_right _ inside) ?_
        rintro rfl
        exact apart (show c ∈ k ++ c :: tail by simp) inside
  · rw [perm.nodup_iff]
    exact List.nodup_append'.mpr ⟨grows.nodup, part.nodup, fun c took member => notTaken c member took⟩
  · rw [perm.mem_iff, List.mem_append]
    constructor
    · rintro (took | old)
      · exact grows.inUse isUsed (List.mem_cons_of_mem e took)
      · exact grows.notFree (inUse c old) isUsed
    · intro now
      by_cases took : c ∈ taken
      · exact .inl took
      · refine .inr ((part.covers c).mpr ?_)
        by_cases isE : c = e
        · rwa [isE]
        · exact now.congr grows.total.symm (grows.same c isE took).symm

theorem Grows.partition {k : List Nat} (part : f.Partition ((k ++ [e]) :: rest)) :
    g.Partition ((k ++ [e] ++ taken) :: rest) := by
  have split := grows.split part
  rw [List.append_cons] at split
  refine ⟨fun l listed => split.links l ?_, split.nodup, split.covers⟩
  rcases List.mem_cons.mp listed with rfl | old
  · exact List.mem_cons_self
  · exact List.mem_cons_of_mem _ (List.mem_cons_of_mem _ old)

end Grows

theorem available_drops (first : 2 ≤ f.availableClustersStart) (total : g.totalClusters = f.totalClusters)
    (hint : g.availableClustersStart ∈ f.available.take n) (free : ∀ c, g.Free c ↔ f.Free c ∧ c ∉ f.available.take n) :
    g.available = f.available.drop n := by
  have order := freeFrom_sorted f (f.totalClusters + 2 - f.availableClustersStart) f.availableClustersStart
  rw [← available, ← List.take_append_drop n f.available, List.pairwise_append] at order
  have start := (mem_freeFrom.mp (List.mem_of_mem_take hint)).1.1
  refine List.Pairwise.eq_of_mem_iff (freeFrom_sorted g _ _) order.2.1 fun c => ?_
  rw [available, mem_freeFrom, total]
  constructor
  · rintro ⟨⟨above, below⟩, zero⟩
    have freeG : g.Free c := by
      refine ⟨?_, zero⟩
      rw [Data, total]
      omega
    obtain ⟨freeF, notTaken⟩ := (free c).mp freeG
    have member : c ∈ f.available := mem_freeFrom.mpr ⟨by omega, freeF.entry⟩
    rw [← List.take_append_drop n f.available, List.mem_append] at member
    exact member.resolve_left notTaken
  · intro later
    have above := order.2.2 _ hint c later
    have freeC := available_free first (List.mem_of_mem_drop later)
    have bound := freeC.data.2
    have notTaken : c ∉ f.available.take n := fun took => lt_irrefl c (order.2.2 c took c later)
    exact ⟨by omega, ((free c).mpr ⟨freeC, notTaken⟩).entry⟩

theorem expand_drops (volume : f.Volume) (pos : 1 ≤ n) (used : f.InUse e)
    (done : f.expandClusterChain e n = some (new, g)) : g.available = f.available.drop n := by
  obtain ⟨-, grows, hint⟩ := expand_takes volume pos used done
  refine available_drops volume.hint grows.total hint fun c => ⟨fun freeG => ?_, fun ⟨freeF, notTaken⟩ => ⟨?_, ?_⟩⟩
  · exact ⟨grows.isFree used freeG, fun took => (grows.inUse used (List.mem_cons_of_mem e took)).notFree' freeG⟩
  · rw [Data, grows.total]
    exact freeF.data
  · have notE : c ≠ e := by
      rintro rfl
      exact used.notFree' freeF
    exact (getFatEntry_congr (grows.same c notE notTaken)).trans freeF.entry

theorem allocate_drops (volume : f.Volume) (takes : f.Takes g (f.available.take n))
    (hint : g.availableClustersStart ∈ f.available.take n) : g.available = f.available.drop n := by
  have total := (takes.moves volume).total
  refine available_drops volume.hint total hint fun c => ⟨fun freeG => ?_, fun ⟨freeF, notTaken⟩ => ⟨?_, ?_⟩⟩
  · have notTaken : c ∉ f.available.take n := fun took => (takes.inUse volume took).notFree' freeG
    refine ⟨⟨?_, (getFatEntry_congr (takes.same notTaken)).symm.trans freeG.entry⟩, notTaken⟩
    have data := freeG.data
    rwa [Data, total] at data
  · rw [Data, total]
    exact freeF.data
  · exact (getFatEntry_congr (takes.same notTaken)).trans freeF.entry

theorem allocate_enough {start : Nat} (done : f.fat32AllocateClusters n = some (start, g)) : n ≤ f.available.length := by
  obtain ⟨found, loop, -⟩ := Option.bind_eq_some_iff.mp done
  exact allocateLoop_enough (by omega) loop

theorem expand_available (volume : f.Volume) (pos : 1 ≤ n) (used : f.InUse e)
    (done : f.expandClusterChain e n = some (new, g)) : f.available.length ≤ g.available.length + n := by
  rw [expand_drops volume pos used done, List.length_drop]
  omega

end Kerosene.Fat32.Fat
