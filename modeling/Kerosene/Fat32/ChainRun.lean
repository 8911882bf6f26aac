import Kerosene.Fat32.ChainStore

namespace Kerosene.Fat32.Fat
open Lib
variable {f g : Fat} {c : Nat} {l : List Nat} {chains rest : List (List Nat)}

/-! ## Replacing one chain -/

theorem Partition.perm {chains' : List (List Nat)} (part : f.Partition chains) (perm : chains.Perm chains') :
    f.Partition chains' := by
  refine ⟨fun l member => part.links l (perm.mem_iff.mpr member), perm.flatten.nodup_iff.mp part.nodup, fun c => ?_⟩
  rw [← perm.flatten.mem_iff, part.covers]

theorem Partition.member (part : f.Partition (l :: rest)) (member : c ∈ l) : f.InUse c :=
  (part.covers c).mp (List.mem_append_left _ member)

theorem InUse.congr (total : g.totalClusters = f.totalClusters) (same : g.entry c = f.entry c)
    (used : f.InUse c) : g.InUse c := by
  refine ⟨?_, ?_, ?_⟩
  · rw [Data, total]
    exact used.data
  · rw [getFatEntry_congr same]
    exact used.notFree
  · rw [getFatEntry_congr same]
    exact used.notBad

theorem Partition.replace {l' taken : List Nat} (part : f.Partition (l :: rest))
    (total : g.totalClusters = f.totalClusters)
    (same : ∀ c, c ∉ l → c ∉ taken → g.entry c = f.entry c) (free : ∀ c ∈ taken, f.Free c)
    (links : Seg g.link l'.head? l' none) (members : ∀ c, c ∈ l' ↔ (c ∈ l ∨ c ∈ taken) ∧ g.InUse c) :
    g.Partition (l' :: rest) := by
  have nodup : l.Nodup ∧ rest.flatten.Nodup ∧ l.Disjoint rest.flatten := List.nodup_append'.mp part.nodup
  have others : ∀ c ∈ rest.flatten, c ∉ l ∧ c ∉ taken := by
    intro c member
    refine ⟨fun both => nodup.2.2 both member, fun took => ?_⟩
    exact ((part.covers c).mp (List.mem_append_right _ member)).notFree (free c took).entry
  have kept : ∀ c ∈ rest.flatten, g.entry c = f.entry c := fun c member =>
    same c (others c member).1 (others c member).2
  refine ⟨?_, ?_, fun c => ?_⟩
  · intro chain listed
    rcases List.mem_cons.mp listed with rfl | old
    · exact links
    · refine (part.links chain (List.mem_cons_of_mem _ old)).congr fun a member => link_congr (kept a ?_)
      exact List.mem_flatten_of_mem old member
  · refine List.nodup_append'.mpr ⟨links.nodup, nodup.2.1, fun c new old => ?_⟩
    obtain ⟨notOld, notTaken⟩ := others c old
    rcases ((members c).mp new).1 with h | h
    · exact notOld h
    · exact notTaken h
  · change c ∈ l' ++ rest.flatten ↔ g.InUse c
    rw [List.mem_append, members]
    constructor
    · rintro (⟨_, used⟩ | old)
      · exact used
      · exact ((part.covers c).mp (List.mem_append_right _ old)).congr total (kept c old)
    · intro used
      by_cases touched : c ∈ l ∨ c ∈ taken
      · exact .inl ⟨touched, used⟩
      · rw [not_or] at touched
        have before : f.InUse c := used.congr total.symm (same c touched.1 touched.2).symm
        rcases List.mem_append.mp ((part.covers c).mpr before) with h | h
        · exact absurd h touched.1
        · exact .inr h

/-! ## Counting free clusters -/

def zeros (f : Fat) : Nat :=
  ((Finset.range (f.totalClusters + 2)).filter fun c => 2 ≤ c ∧ f.getFatEntry c = fatFreeCluster).card

theorem zeros_add {l : List Nat} (total : g.totalClusters = f.totalClusters) (nodup : l.Nodup)
    (free : ∀ c ∈ l, f.Free c) (used : ∀ c ∈ l, g.getFatEntry c ≠ fatFreeCluster)
    (same : ∀ c, c ∉ l → (g.getFatEntry c = fatFreeCluster ↔ f.getFatEntry c = fatFreeCluster)) :
    g.zeros + l.length = f.zeros := by
  rw [zeros, zeros, ← List.toFinset_card_of_nodup nodup, ← Finset.card_union_of_disjoint]
  · congr 1
    ext c
    simp only [Finset.mem_union, Finset.mem_filter, Finset.mem_range, List.mem_toFinset, total]
    by_cases taken : c ∈ l
    · have := free c taken
      exact ⟨fun _ => ⟨this.data.2, this.data.1, this.entry⟩, fun _ => .inr taken⟩
    · rw [same c taken]
      exact ⟨fun h => h.resolve_right taken, .inl⟩
  · rw [Finset.disjoint_left]
    intro c inside taken
    exact used c (List.mem_toFinset.mp taken) (Finset.mem_filter.mp inside).2.2

/-- `fsinfo.free_cluster_count` moves as the number of zero data entries does. -/
def CountsFree (f g : Fat) : Prop :=
  g.freeClusterCount - f.freeClusterCount = BitVec.ofNat 32 g.zeros - BitVec.ofNat 32 f.zeros

theorem countsFree_sub {n : Nat} (zeros : g.zeros + n = f.zeros)
    (count : g.freeClusterCount = f.freeClusterCount - BitVec.ofNat 32 n) : f.CountsFree g := by
  rw [CountsFree, ← zeros, BitVec.ofNat_add, count]
  ring

theorem countsFree_add {n : Nat} (zeros : f.zeros + n = g.zeros)
    (count : g.freeClusterCount = f.freeClusterCount + BitVec.ofNat 32 n) : f.CountsFree g := by
  rw [CountsFree, ← zeros, BitVec.ofNat_add, count]
  ring

/-! ## What each operation does to one chain -/

/-- Cluster numbers lie below the marks, and the search never starts at a reserved entry. -/
structure Volume (f : Fat) : Prop where
  fits : f.totalClusters + 2 ≤ fatBadCluster
  hint : 2 ≤ f.availableClustersStart

theorem Volume.below (volume : f.Volume) (data : f.Data c) : c < fatBadCluster := by
  have := volume.fits
  have := data.2
  omega

theorem Volume.belowEoc (volume : f.Volume) (data : f.Data c) : c < fatEoc := by
  have := volume.below data
  simp only [fatBadCluster, fatEoc] at this ⊢
  omega

/-- From `f` to `g`, chain `l` turns into `l'`, taking the clusters `taken`. -/
structure Moves (f g : Fat) (l l' taken : List Nat) : Prop where
  total : g.totalClusters = f.totalClusters
  hint : 2 ≤ g.availableClustersStart
  free : ∀ c ∈ taken, f.Free c
  nodup : taken.Nodup
  same : ∀ c, c ∉ l → c ∉ taken → g.entry c = f.entry c
  links : Seg g.link l'.head? l' none
  members : ∀ c, c ∈ l' ↔ (c ∈ l ∨ c ∈ taken) ∧ g.InUse c
  counts : f.CountsFree g

section Allocation
variable {taken : List Nat} (volume : f.Volume) (takes : f.Takes g taken)
include volume takes

theorem Takes.small : ∀ c ∈ taken, c < fatEoc := fun c member => volume.belowEoc (takes.free c member).data

theorem Takes.inUse (member : c ∈ taken) : g.InUse c := by
  obtain ⟨hint, _, rfl⟩ := takes.laid
  refine ⟨(by rw [Data, totalClusters_withFsinfo, totalClusters_lay]; exact (takes.free c member).data), ?_, ?_⟩
  all_goals
    rw [getFatEntry_withFsinfo]
    rcases getFatEntry_lay f takes.nodup (takes.small volume) member with next | last
  · have data := (takes.free _ next).data.1
    simp only [fatFreeCluster]
    omega
  · rw [last]
    decide
  · exact (volume.below (takes.free _ next).data).ne
  · rw [last]
    decide

omit volume in
theorem Takes.same (outside : c ∉ taken) : g.entry c = f.entry c := by
  obtain ⟨hint, _, rfl⟩ := takes.laid
  exact entry_lay f outside

theorem Takes.moves : f.Moves g [] taken taken := by
  have used := fun c member => takes.inUse volume (c := c) member
  have outside := fun c member => takes.same (c := c) member
  obtain ⟨hint, low, rfl⟩ := takes.laid
  refine ⟨totalClusters_lay f taken, low, takes.free, takes.nodup, fun c _ => outside c,
    seg_lay f takes.nodup (takes.small volume), fun c => ?_, ?_⟩
  · exact ⟨fun member => ⟨.inr member, used c member⟩, fun h => h.1.resolve_left List.not_mem_nil⟩
  · refine countsFree_sub (zeros_add (totalClusters_lay f taken) takes.nodup takes.free
      (fun c member => (used c member).notFree) fun c free => ?_) rfl
    rw [getFatEntry_congr (outside c free)]

end Allocation

theorem InUse.notFree' (used : f.InUse c) : ¬ f.Free c := fun free => used.notFree free.entry

theorem Takes.moves_expand {taken k : List Nat} {last start : Nat} (volume : f.Volume) (takes : f.Takes g taken)
    (head : taken.head? = some start) (part : f.Partition ((k ++ [last]) :: rest)) :
    f.Moves (g.setFatEntry last start) (k ++ [last]) (k ++ [last] ++ taken) taken := by
  have moves := takes.moves volume
  have first : start ∈ taken := List.mem_of_mem_head? head
  have firstData := (takes.free start first).data
  have startSmall : start < 2 ^ 28 := by
    have := volume.below firstData
    simp only [fatBadCluster] at this
    omega
  have usedChain : ∀ c ∈ k ++ [last], f.InUse c := fun c member => part.member member
  have apart : ∀ c ∈ k ++ [last], c ∉ taken := fun c member took =>
    (usedChain c member).notFree' (takes.free c took)
  have notTaken : last ∉ taken := apart last (by simp)
  have lastValue : (g.setFatEntry last start).getFatEntry last = start := getFatEntry_set_self g last startSmall
  have entryOf : ∀ c, c ≠ last → c ∉ taken → (g.setFatEntry last start).entry c = f.entry c := by
    intro c notLast outside
    rw [entry_setFatEntry_ne notLast, takes.same outside]
  have inUse : ∀ c, c ∈ k ++ [last] ∨ c ∈ taken → (g.setFatEntry last start).InUse c := by
    intro c member
    by_cases isLast : c = last
    · subst isLast
      refine ⟨?_, ?_, ?_⟩
      · rw [Data, totalClusters_setFatEntry, moves.total]
        exact (usedChain c (by simp)).data
      · rw [lastValue]
        have := firstData.1
        simp only [fatFreeCluster]
        omega
      · rw [lastValue]
        exact (volume.below firstData).ne
    · rcases member with old | took
      · exact (usedChain c old).congr moves.total (entryOf c isLast (apart c old))
      · exact (takes.inUse volume took).congr (totalClusters_setFatEntry g last start)
          (entry_setFatEntry_ne isLast g start)
  refine ⟨moves.total, moves.hint, takes.free, takes.nodup, ?_, ?_, fun c => ?_, ?_⟩
  · intro c outside
    exact entryOf c (by rintro rfl; simp at outside)
  · have whole := part.links _ List.mem_cons_self
    have nodup := whole.nodup
    have left : Seg (g.setFatEntry last start).link (k ++ [last]).head? (k ++ [last]) (some start) := by
      refine whole.relink (fun c member => ?_) (link_set_self g last (volume.belowEoc firstData))
      have notLast : c ≠ last := by
        rintro rfl
        exact (List.nodup_append'.mp nodup).2.2 member (by simp)
      exact link_congr (entryOf c notLast (apart c (by simp [member])))
    have right : Seg (g.setFatEntry last start).link (some start) taken none := by
      rw [← head]
      refine moves.links.congr fun c member => link_congr (entry_setFatEntry_ne ?_ g start)
      rintro rfl
      exact notTaken member
    have heads : (k ++ [last] ++ taken).head? = (k ++ [last]).head? := by
      cases k <;> rfl
    rw [heads]
    exact seg_append.mpr ⟨_, left, right⟩
  · rw [List.mem_append]
    exact ⟨fun member => ⟨member, inUse c member⟩, fun h => h.1⟩
  · obtain ⟨hint, _, equal⟩ := takes.laid
    refine countsFree_sub (zeros_add moves.total takes.nodup takes.free
      (fun c took => (inUse c (.inr took)).notFree) fun c outside => ?_) (n := taken.length) ?_
    · by_cases isLast : c = last
      · subst isLast
        have before := (usedChain c (by simp)).notFree
        have after := (inUse c (.inl (by simp))).notFree
        exact ⟨fun h => absurd h after, fun h => absurd h before⟩
      · rw [getFatEntry_congr (entryOf c isLast outside)]
    · rw [equal]
      rfl

/-! ### Freeing -/

theorem length_lt_of_inUse (nodup : l.Nodup) (used : ∀ c ∈ l, f.InUse c) : l.length < f.totalClusters + 3 := by
  have inside : l.toFinset ⊆ Finset.range (f.totalClusters + 2) := by
    intro c member
    exact Finset.mem_range.mpr (used c (List.mem_toFinset.mp member)).data.2
  have card := Finset.card_le_card inside
  rw [List.toFinset_card_of_nodup nodup, Finset.card_range] at card
  omega

theorem freeClusterChain_spec (volume : f.Volume) {h : Nat} (start : l.head? = some h)
    (seg : Seg f.link l.head? l none) (used : ∀ c ∈ l, f.InUse c) :
    ∃ hint, 2 ≤ hint ∧ f.freeClusterChain h =
      some (.success, (f.clear l).withFsinfo hint (f.freeClusterCount + BitVec.ofNat 32 l.length)) := by
  obtain ⟨last, high, loop⟩ := freeLoop_spec start seg (fun c member => volume.below (used c member).data)
    (length_lt_of_inUse seg.nodup used) f.freeClusterCount
  have notBad : last ≠ fatBadCluster := by
    simp only [fatEoc, fatBadCluster] at high ⊢
    omega
  refine ⟨if h < f.availableClustersStart then h else f.availableClustersStart, ?_, ?_⟩
  · have := volume.hint
    have := (used h (List.mem_of_mem_head? start)).data.1
    split_ifs <;> omega
  · simp only [freeClusterChain, loop, Option.bind_eq_bind, Option.bind_some, notBad, if_false]
    rfl

theorem cutClusterChain_spec (volume : f.Volume) {tail : List Nat} (links : Seg f.link (some c) (c :: tail) none)
    (used : ∀ a ∈ c :: tail, f.InUse a) :
    ∃ g, f.cutClusterChain c = some (.success, g) ∧ (tail = [] ∧ g = f ∨ ∃ hint, 2 ≤ hint ∧
      g = ((f.clear tail).withFsinfo hint (f.freeClusterCount + BitVec.ofNat 32 tail.length)).setFatEntry c fatEoc) := by
  have link := links.2
  cases tail with
  | nil =>
      have ends : ¬ f.getFatEntry c < fatEoc := by
        intro below
        have ends : f.link c = none := link
        rw [Fat.link, if_pos below] at ends
        cases ends
      exact ⟨f, by rw [cutClusterChain, if_pos (not_lt.mp ends)]; rfl, .inl ⟨rfl, rfl⟩⟩
  | cons b tail =>
      have next : f.link c = some b := link.1
      have value : f.getFatEntry c = b ∧ b < fatEoc := by
        unfold Fat.link at next
        split_ifs at next with below
        exact ⟨Option.some.inj next, Option.some.inj next ▸ below⟩
      have usedTail : ∀ a ∈ b :: tail, f.InUse a := fun a member => used a (List.mem_cons_of_mem c member)
      obtain ⟨hint, low, done⟩ := freeClusterChain_spec volume (l := b :: tail) rfl (by rw [next] at link; exact link) usedTail
      have notBad : b ≠ fatBadCluster := (volume.below (usedTail b List.mem_cons_self).data).ne
      have below : ¬ b ≥ fatEoc := not_le.mpr value.2
      refine ⟨_, ?_, .inr ⟨hint, low, rfl⟩⟩
      simp only [cutClusterChain, value.1, below, notBad, done, if_false, Option.bind_eq_bind, Option.bind_some, ne_eq,
        not_true]
      rfl

theorem clear_moves (part : f.Partition (l :: rest)) {hint : Nat} (low : 2 ≤ hint) :
    f.Moves ((f.clear l).withFsinfo hint (f.freeClusterCount + BitVec.ofNat 32 l.length)) l [] [] := by
  refine ⟨totalClusters_clear f l, low, by simp, List.nodup_nil, fun c outside _ => entry_clear f outside, rfl,
    fun c => ?_, ?_⟩
  · simp only [List.not_mem_nil, or_false, false_iff, not_and]
    exact fun member used => used.notFree (getFatEntry_clear f member)
  · have nodup := (part.links l List.mem_cons_self).nodup
    refine countsFree_add (zeros_add (totalClusters_clear f l).symm nodup (fun c member => ⟨?_, ?_⟩)
      (fun c member => (part.member member).notFree) fun c outside => ?_) rfl
    · rw [Data, totalClusters_withFsinfo, totalClusters_clear]
      exact (part.member member).data
    · exact getFatEntry_clear f member
    · rw [getFatEntry_withFsinfo, getFatEntry_congr (entry_clear f outside)]

theorem cut_moves {k tail : List Nat} (part : f.Partition ((k ++ c :: tail) :: rest)) {hint : Nat} (low : 2 ≤ hint) :
    f.Moves (((f.clear tail).withFsinfo hint
      (f.freeClusterCount + BitVec.ofNat 32 tail.length)).setFatEntry c fatEoc) (k ++ c :: tail) (k ++ [c]) [] := by
  set g := (f.clear tail).withFsinfo hint (f.freeClusterCount + BitVec.ofNat 32 tail.length) with gDef
  have whole := part.links _ List.mem_cons_self
  have nodup := whole.nodup
  have parts := List.nodup_append'.mp nodup
  have cut := (List.nodup_cons.mp parts.2.1).1
  have used : ∀ a ∈ k ++ c :: tail, f.InUse a := fun a member => part.member member
  have total : (g.setFatEntry c fatEoc).totalClusters = f.totalClusters := totalClusters_clear f tail
  have ended : (g.setFatEntry c fatEoc).getFatEntry c = fatEoc := getFatEntry_set_self g c (by decide)
  have entryOf : ∀ a, a ≠ c → a ∉ tail → (g.setFatEntry c fatEoc).entry a = f.entry a := by
    intro a other outside
    rw [entry_setFatEntry_ne other, gDef, entry_withFsinfo, entry_clear f outside]
  have zeroed : ∀ a ∈ tail, (g.setFatEntry c fatEoc).getFatEntry a = fatFreeCluster := by
    intro a member
    rw [getFatEntry_set_ne (by rintro rfl; exact cut member), gDef, getFatEntry_withFsinfo, getFatEntry_clear f member]
  have front : ∀ a ∈ k, a ≠ c ∧ a ∉ tail := fun a member =>
    ⟨by rintro rfl; exact parts.2.2 member (by simp), fun later => parts.2.2 member (by simp [later])⟩
  have inUse : ∀ a ∈ k ++ [c], (g.setFatEntry c fatEoc).InUse a := by
    intro a member
    rcases List.mem_append.mp member with before | isC
    · exact (used a (by simp [before])).congr total (entryOf a (front a before).1 (front a before).2)
    · cases List.mem_singleton.mp isC
      refine ⟨?_, ?_, ?_⟩
      · rw [Data, total]
        exact (used c (by simp)).data
      · rw [ended]
        decide
      · rw [ended]
        decide
  refine ⟨total, low, by simp, List.nodup_nil, ?_, ?_, fun a => ?_, ?_⟩
  · intro a outside _
    rw [List.mem_append, not_or, List.mem_cons, not_or] at outside
    exact entryOf a outside.2.1 outside.2.2
  · have heads : (k ++ [c]).head? = (k ++ c :: tail).head? := by
      cases k <;> rfl
    rw [heads]
    refine (whole.split).1.relink (fun a member => link_congr ?_) (link_set_eoc g c)
    exact entryOf a (front a member).1 (front a member).2
  · simp only [List.not_mem_nil, or_false]
    constructor
    · intro member
      refine ⟨?_, inUse a member⟩
      rcases List.mem_append.mp member with h | h
      · simp [h]
      · simp [List.mem_singleton.mp h]
    · rintro ⟨member, used⟩
      rcases List.mem_append.mp member with h | h
      · simp [h]
      · rcases List.mem_cons.mp h with rfl | later
        · simp
        · exact absurd (zeroed a later) used.notFree
  · refine countsFree_add (n := tail.length) (zeros_add total.symm (List.nodup_cons.mp parts.2.1).2
      (fun a member => ⟨?_, zeroed a member⟩) (fun a member => (used a (by simp [member])).notFree)
      fun a outside => ?_) rfl
    · rw [Data, total]
      exact (used a (by simp [member])).data
    · by_cases isC : a = c
      · subst isC
        have before := (used a (by simp)).notFree
        have after := (inUse a (by simp)).notFree
        exact ⟨fun h => absurd h before, fun h => absurd h after⟩
      · rw [getFatEntry_congr (entryOf a isC outside)]

/-! ## Runs -/

inductive ChainCall where
  | allocate (count : Nat)
  | expand (last count : Nat)
  | cut (cluster : Nat)
  | free (head : Nat)

namespace ChainCall

-- the chain that a call names
def Names : ChainCall → List Nat → Prop
  | allocate _, _ => False
  | expand last _, l => l.getLast? = some last
  | cut cluster, l => cluster ∈ l
  | free head, l => l.head? = some head

def count : ChainCall → Nat
  | allocate n | expand _ n => n
  | cut _ | free _ => 0

/-- What the named chain `l` becomes when the clusters `taken` are granted. -/
def leaves : ChainCall → List Nat → List Nat → List Nat
  | allocate _, l, taken | expand _ _, l, taken => l ++ taken
  | cut c, l, _ => l.takeWhile (· ≠ c) ++ [c]
  | free _, _, _ => []

theorem leaves_cut {k tail taken : List Nat} (outside : c ∉ k) : (cut c).leaves (k ++ c :: tail) taken = k ++ [c] := by
  have kept : (k ++ c :: tail).takeWhile (· ≠ c) = k := by
    rw [List.takeWhile_append_of_pos fun a member => ?_, List.takeWhile_cons_of_neg (by simp), List.append_nil]
    simpa using ne_of_mem_of_not_mem member outside
  rw [leaves, kept]

/-- The call names one of `chains`, and an allocation will find enough zero entries. -/
def Legal (f : Fat) (chains : List (List Nat)) : ChainCall → Prop
  | allocate n => 1 ≤ n ∧ n ≤ f.available.length
  | expand last n => (1 ≤ n ∧ n ≤ f.available.length) ∧ ∃ l ∈ chains, (expand last n).Names l
  | cut c => ∃ l ∈ chains, (cut c).Names l
  | free h => ∃ l ∈ chains, (free h).Names l

end ChainCall

def exec (f : Fat) : ChainCall → Option Fat
  | .allocate n => (f.fat32AllocateClusters n).map Prod.snd
  | .expand last n => (f.expandClusterChain last n).map Prod.snd
  | .cut c => (f.cutClusterChain c).map Prod.snd
  | .free h => (f.freeClusterChain h).map Prod.snd

def chainStore : Machine Fat ChainCall where
  Legal f call := ∃ chains, f.Partition chains ∧ call.Legal f chains
  step := exec

structure Store (f : Fat) : Prop where
  volume : f.Volume
  partition : ∃ chains, f.Partition chains

/-- The clusters `taken` were free and are one chain of their own or the end of the named one,
everything outside them and the named chain is as before, and the counter follows the table. -/
structure Steps (f g : Fat) (chains : List (List Nat)) (call : ChainCall) (taken : List Nat) : Prop where
  store : g.Store
  count : taken.length = call.count
  nodup : taken.Nodup
  free : ∀ c ∈ taken, f.Free c
  same : ∀ c, c ∉ taken → (∀ l ∈ chains, call.Names l → c ∉ l) → g.entry c = f.entry c
  fresh : (∀ l ∈ chains, ¬ call.Names l) → g.Partition (taken :: chains)
  replaced : ∀ l rest, (l :: rest).Perm chains → call.Names l → g.Partition (call.leaves l taken :: rest)
  counts : f.CountsFree g

theorem Moves.partition {l' taken : List Nat} (moves : f.Moves g l l' taken) (part : f.Partition (l :: rest)) :
    g.Partition (l' :: rest) :=
  part.replace moves.total moves.same moves.free moves.links moves.members

theorem Moves.store {l' taken : List Nat} (moves : f.Moves g l l' taken) (volume : f.Volume)
    (part : f.Partition (l :: rest)) : g.Store :=
  ⟨⟨by rw [moves.total]; exact volume.fits, moves.hint⟩, l' :: rest, moves.partition part⟩

theorem ChainCall.Names.shared {call : ChainCall} (named : call.Names l) : ∃ c ∈ l, ∀ l', call.Names l' → c ∈ l' := by
  cases call with
  | allocate n => exact named.elim
  | expand last n => exact ⟨last, List.mem_of_getLast? named, fun _ => List.mem_of_getLast?⟩
  | cut c => exact ⟨c, named, fun _ => id⟩
  | free h => exact ⟨h, List.mem_of_mem_head? named, fun _ => List.mem_of_mem_head?⟩

theorem Partition.named_unique {call : ChainCall} {l' : List Nat} (part : f.Partition chains)
    (perm : (l :: rest).Perm chains) (named : call.Names l) (listed : l' ∈ chains) (named' : call.Names l') : l' = l := by
  obtain ⟨c, inside, shared⟩ := named.shared
  rcases List.mem_cons.mp (perm.mem_iff.mpr listed) with same | other
  · exact same
  · have apart := (List.nodup_append'.mp (part.perm perm.symm).nodup).2.2
    exact absurd (List.mem_flatten_of_mem other (shared l' named')) (apart inside)

theorem Moves.steps {l' taken : List Nat} {call : ChainCall} (moves : f.Moves g l l' taken) (volume : f.Volume)
    (part : f.Partition chains) (listed : l ∈ chains) (named : call.Names l) (count : taken.length = call.count)
    (leaves : call.leaves l taken = l') : f.Steps g chains call taken := by
  refine ⟨moves.store volume (part.perm (List.perm_cons_erase listed)), count, moves.nodup, moves.free,
    fun c outside others => moves.same c (others l listed named) outside, fun none => absurd named (none l listed),
    fun chain rest perm other => ?_, moves.counts⟩
  cases part.named_unique perm other listed named
  rw [leaves]
  exact moves.partition (part.perm perm.symm)

theorem Partition.consNil (part : f.Partition chains) : f.Partition ([] :: chains) :=
  ⟨fun l listed => (List.mem_cons.mp listed).elim (fun h => by rw [h]; rfl) (part.links l), part.nodup, part.covers⟩

theorem exec_steps (volume : f.Volume) (part : f.Partition chains) {call : ChainCall}
    (legal : call.Legal f chains) : ∃ g taken, f.exec call = some g ∧ f.Steps g chains call taken := by
  cases call with
  | allocate n =>
      obtain ⟨taken, start, g, done, length, _, takes⟩ := allocate_spec volume.hint legal.1 legal.2
      have moves := takes.moves volume
      refine ⟨g, taken, by rw [exec, done]; rfl, ?_⟩
      exact ⟨moves.store volume part.consNil, length, takes.nodup, takes.free,
        fun c outside _ => takes.same outside, fun _ => moves.partition part.consNil, fun _ _ _ named => named.elim,
        moves.counts⟩
  | expand last n =>
      obtain ⟨⟨pos, enough⟩, l, listed, named⟩ := legal
      obtain ⟨taken, start, g, done, length, head, takes⟩ := allocate_spec volume.hint pos enough
      obtain ⟨k, rfl⟩ : ∃ k, l = k ++ [last] := ⟨_, (List.dropLast_append_getLast? last named).symm⟩
      have nonzero : start ≠ 0 := by
        have := (takes.free start (List.mem_of_mem_head? head)).data.1
        omega
      have moves := takes.moves_expand volume head (part.perm (List.perm_cons_erase listed))
      refine ⟨_, taken, ?_, moves.steps volume part listed named length rfl⟩
      simp only [exec, expandClusterChain, done, Option.bind_eq_bind, Option.bind_some, nonzero, if_false]
      rfl
  | free h =>
      obtain ⟨l, listed, named⟩ := legal
      have front := part.perm (List.perm_cons_erase listed)
      obtain ⟨hint, low, done⟩ := freeClusterChain_spec volume named (front.links l List.mem_cons_self)
        fun c member => front.member member
      exact ⟨_, [], by rw [exec, done]; rfl, (clear_moves front low).steps volume part listed named rfl rfl⟩
  | cut c =>
      obtain ⟨l, listed, named⟩ := legal
      have front := part.perm (List.perm_cons_erase listed)
      obtain ⟨k, tail, rfl⟩ := List.append_of_mem named
      have link : Seg f.link (some c) (c :: tail) none := ⟨rfl, (front.links _ List.mem_cons_self).split.2⟩
      obtain ⟨g, done, result⟩ := cutClusterChain_spec volume link fun a member => front.member (by simp at member ⊢; grind)
      have outside : c ∉ k := fun before =>
        (List.nodup_append'.mp (front.links _ List.mem_cons_self).nodup).2.2 before List.mem_cons_self
      rcases result with ⟨rfl, rfl⟩ | ⟨hint, low, rfl⟩
      · refine ⟨g, [], by rw [exec, done]; rfl, ⟨volume, chains, part⟩, rfl, List.nodup_nil, by simp, fun _ _ _ => rfl,
          fun none => absurd named (none _ listed), fun l rest perm other => ?_, ?_⟩
        · cases part.named_unique perm other listed named
          rw [ChainCall.leaves_cut outside]
          exact part.perm perm.symm
        · rw [CountsFree]
          ring
      · exact ⟨_, [], by rw [exec, done]; rfl,
          (cut_moves front low).steps volume part listed named rfl (ChainCall.leaves_cut outside)⟩

theorem store_of_reaches {start : Fat} (store : start.Store) (run : chainStore.Reaches start f) : f.Store := by
  refine run.invariant (I := Store) ?_ store
  rintro f call g store ⟨chains, part, legal⟩ step
  obtain ⟨h, taken, done, steps⟩ := exec_steps store.volume part legal
  have same : some h = some g := done.symm.trans step
  cases same
  exact steps.store

/-- Over every run of the cluster operations, the table stays a set of disjoint chains that end,
every call succeeds, takes only free clusters and links them, changes nothing outside them and the
chain it names, turns that chain into what the call says, and keeps the free count in step. -/
theorem fat_is_chain_store (start : Fat) (store : start.Store) (f : Fat) (run : chainStore.Reaches start f) :
    f.Store ∧ ∀ chains call, f.Partition chains → call.Legal f chains →
      ∃ g taken, f.exec call = some g ∧ f.Steps g chains call taken := by
  have kept := store_of_reaches store run
  exact ⟨kept, fun chains call part legal => exec_steps kept.volume part legal⟩

-- five data clusters, of which 2 and 3 hold one file
def oneFile : Fat where
  entry c := if c = 2 then 3#32 else if c = 3 then 0x0fffffff#32 else 0#32
  totalClusters := 5
  availableClustersStart := 2
  freeClusterCount := 3#32

theorem oneFile_partition : oneFile.Partition [[2, 3]] := by
  refine ⟨fun l listed => ?_, by decide, fun c => ⟨fun member => ?_, fun used => ?_⟩⟩
  · cases List.mem_singleton.mp listed
    exact ⟨rfl, by decide, show oneFile.link 3 = none by decide⟩
  · rcases List.mem_cons.mp member with rfl | other
    · exact ⟨⟨by decide, by decide⟩, by decide, by decide⟩
    · cases List.mem_singleton.mp other
      exact ⟨⟨by decide, by decide⟩, by decide, by decide⟩
  · by_contra outside
    have : c ≠ 2 ∧ c ≠ 3 := by simpa using outside
    apply used.notFree
    simp [getFatEntry, oneFile, this, fatFreeCluster]

theorem fat_is_chain_store_expand_file :
    ∃ g taken, oneFile.exec (.expand 3 2) = some g ∧ oneFile.Steps g [[2, 3]] (.expand 3 2) taken :=
  (fat_is_chain_store oneFile ⟨⟨by decide, by decide⟩, [[2, 3]], oneFile_partition⟩ oneFile (.refl _)).2
    [[2, 3]] (.expand 3 2) oneFile_partition ⟨⟨by decide, by decide⟩, [2, 3], by simp, rfl⟩

end Kerosene.Fat32.Fat
