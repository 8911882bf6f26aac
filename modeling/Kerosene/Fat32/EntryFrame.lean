import Kerosene.Fat32.Duplicates

/-!
# When `fat32_add_entry` succeeds, and what it leaves alone
-/

namespace Kerosene.Fat32
open Lib Libc
open Ramfs (Name filenameLimit)

namespace Fat
variable {f g h : Fat} {chain chain' : List Nat} {n m : Nat}

/-- From `f` to `g`, the first `n` free clusters are linked behind clusters of `chain`. -/
structure Expands (f g : Fat) (chain : List Nat) (n : Nat) : Prop where
  total : g.totalClusters = f.totalClusters
  hint : 2 ≤ g.availableClustersStart
  enough : n ≤ f.available.length
  available : g.available = f.available.drop n
  same : ∀ c, c ∉ chain → c ∉ f.available.take n → g.entry c = f.entry c
  inUse : ∀ c, f.InUse c → g.InUse c
  taken : ∀ c ∈ f.available.take n, g.InUse c

theorem Expands.refl (hint : 2 ≤ f.availableClustersStart) : f.Expands f chain 0 where
  total := rfl
  hint := hint
  enough := Nat.zero_le _
  available := rfl
  same _ _ _ := rfl
  inUse _ used := used
  taken c member := by cases member

theorem Expands.trans (first : f.Expands g chain n) (second : g.Expands h chain' m)
    (inside : ∀ c ∈ chain', c ∈ chain ∨ c ∈ f.available.take n) : f.Expands h chain (n + m) := by
  have split : f.available.take (n + m) = f.available.take n ++ g.available.take m := by
    rw [first.available, List.take_add]
  have enough := second.enough
  rw [first.available, List.length_drop] at enough
  have enough' := first.enough
  refine ⟨second.total.trans first.total, second.hint, by omega, ?_, fun c other notTaken => ?_,
    fun c used => second.inUse c (first.inUse c used), fun c member => ?_⟩
  · rw [second.available, first.available, List.drop_drop]
  · rw [split, List.mem_append, not_or] at notTaken
    rw [second.same c (fun member => (inside c member).elim other notTaken.1) notTaken.2, first.same c other notTaken.1]
  · rw [split, List.mem_append] at member
    exact member.elim (fun old => second.inUse c (first.taken c old)) (second.taken c)

theorem Expands.volume (expands : f.Expands g chain n) (volume : f.Volume) : g.Volume :=
  ⟨by rw [expands.total]; exact volume.fits, expands.hint⟩

theorem Expands.data {c : Nat} (expands : f.Expands g chain n) : g.Data c ↔ f.Data c := by
  rw [Data, Data, expands.total]

theorem allocate_expands {start : Nat} (volume : f.Volume) (pos : 1 ≤ n) (done : f.fat32AllocateClusters n = some (start, g)) :
    f.Expands g [] n ∧ (f.available.take n).head? = some start ∧ f.Takes g (f.available.take n) := by
  have enough := allocate_enough done
  obtain ⟨start', g', done', head, takes, hint⟩ := allocate_takes volume.hint pos enough
  cases done.symm.trans done'
  have moves := takes.moves volume
  refine ⟨⟨moves.total, moves.hint, enough, allocate_drops volume takes hint, fun c _ notTaken => takes.same notTaken,
    fun c used => ?_, fun c took => takes.inUse volume took⟩, head, takes⟩
  exact used.congr moves.total (takes.same fun took => used.notFree' (takes.free c took))

end Fat

namespace Disk
variable {d d₁ d₂ d' : Disk} {c : Cursor} {chain : List Nat} {name : Name} {stack : Int → UInt8} {fuel : Nat}

theorem expandChain_expands {e n new : Nat} (volume : d.fat.Volume) (pos : 1 ≤ n) (used : d.fat.InUse e)
    (expanded : d.expandChain e n = some (new, d')) : ∃ g, d' = d.withFat g ∧ d.fat.Expands g [e] n ∧
      (d.fat.available.take n).head? = some new := by
  obtain ⟨g, rfl, head, grows, fewer, length⟩ := expandChain_grows volume pos used expanded
  refine ⟨g, rfl, ⟨grows.total, grows.hint, ?_, fewer, fun c other notTaken => ?_, fun c inUse => grows.notFree inUse used,
    fun c took => grows.inUse used (List.mem_cons_of_mem e took)⟩, head⟩
  · rw [List.length_take] at length
    omega
  · exact grows.same c (fun same => other (List.mem_singleton.mpr same)) notTaken

/-- The clusters that the directory takes for the entries of `name`. -/
def growth (d : Disk) (chain : List Nat) (name : Name) : Nat :=
  let p := d.firstFree chain
  let count := d.newClusterCount (lfnEntryCount name) (32 * (p % d.slotsPerCluster))
  if p = d.slotsPerCluster * chain.length then 1 + count else count

theorem mem_grownChain_take {x : Nat} (member : x ∈ d.grownChain chain name) :
    x ∈ chain ∨ x ∈ d.fat.available.take (d.growth chain name) := by
  rw [grownChain] at member
  rw [growth]
  split_ifs at member ⊢
  · exact List.mem_append.mp member
  · exact .inl member
  · exact (List.mem_append.mp member).imp List.mem_of_mem_take id

theorem length_grownChain_le : (d.grownChain chain name).length ≤ chain.length + d.growth chain name := by
  rw [grownChain, growth]
  split_ifs
  · rw [List.length_append, List.length_take]
    omega
  · exact Nat.le_add_right ..
  · rw [List.length_append, List.length_take, List.length_take]
    omega

theorem firstFree_lt_grownChain (some : 0 < d.slotsPerCluster) (room : d.growth chain name ≤ d.fat.available.length) :
    d.firstFree chain < d.slotsPerCluster * (d.grownChain chain name).length := by
  have inside := d.firstFree_le chain
  rw [grownChain]
  rw [growth] at room
  split_ifs at room ⊢ with full none
  · rw [List.length_append, List.length_take, Nat.min_eq_left room, Nat.mul_add, Nat.mul_add]
    omega
  · omega
  · have row : d.firstFree chain < d.slotsPerCluster * (d.firstFree chain / d.slotsPerCluster + 1) :=
      Nat.lt_mul_div_succ (d.firstFree chain) some
    have kept : d.firstFree chain / d.slotsPerCluster < chain.length := Nat.div_lt_of_lt_mul (by omega)
    rw [List.length_append, List.length_take, Nat.min_eq_left kept, Nat.mul_add]
    exact row.trans_le (Nat.le_add_right ..)

/-- The search for a duplicate ends at an entry. -/
def Finds (d : Disk) (chain : List Nat) (name : Name) (stack : Int → UInt8) : Prop :=
  (d.dirSlots chain).foldlM (searchSlot name) (.start stack) = .error true

/-! ## What a change elsewhere leaves alone -/

theorem DirChain.kept (on : d.DirChain chain) (same : ∀ c ∈ chain, d'.fat.entry c = d.fat.entry c) : d'.DirChain chain := by
  refine ⟨?_, fun c last => ?_, on.nodup⟩
  · refine List.IsChain.imp_of_mem_imp (fun a b inside _ next => ?_) on.linked
    rwa [Fat.getFatEntry_congr (same a inside)]
  · rw [Fat.getFatEntry_congr (same c (List.mem_of_getLast? last))]
    exact on.ends c last

/-- The clusters of `chain` hold what they held. -/
structure Stays (d d' : Disk) (chain : List Nat) : Prop where
  sectors : d'.sectorsPerCluster = d.sectorsPerCluster
  data : ∀ c ∈ chain, d'.data c = d.data c

section Stays
variable (stays : d.Stays d' chain)
include stays

theorem Stays.slots : d'.dirSlots chain = d.dirSlots chain := dirSlots_congr stays.data stays.sectors

theorem Stays.perCluster : d'.slotsPerCluster = d.slotsPerCluster := by
  rw [slotsPerCluster_eq, slotsPerCluster_eq, stays.sectors]

theorem Stays.finds : d'.Finds chain name stack ↔ d.Finds chain name stack := by
  rw [Finds, Finds, stays.slots]

theorem Stays.firstFree : d'.firstFree chain = d.firstFree chain := by
  rw [Disk.firstFree, stays.slots, Disk.firstFree]

theorem Stays.growth : d'.growth chain name = d.growth chain name := by
  have size : d'.clusterSize = d.clusterSize := by rw [clusterSize, clusterSize, stays.sectors]
  have count : ∀ n i, d'.newClusterCount n i = d.newClusterCount n i := fun n i => by
    rw [newClusterCount, newClusterCount, estimatedNewClusterCount, estimatedNewClusterCount, size]
  rw [Disk.growth, Disk.growth, stays.firstFree, stays.perCluster, count]

end Stays

/-! ## The clusters taken -/

theorem expandChain_nonzero {e n new : Nat} (volume : d.fat.Volume) (pos : 1 ≤ n) (used : d.fat.InUse e)
    (expanded : d.expandChain e n = some (new, d')) : new ≠ 0 := by
  obtain ⟨g, -, -, head⟩ := expandChain_expands volume pos used expanded
  have := (Fat.available_free volume.hint (List.mem_of_mem_take (List.mem_of_mem_head? head))).data.1
  omega

theorem FreeSlot.takes (volume : d.fat.Volume) (inUse : ∀ c ∈ chain, d.fat.InUse c)
    (slot : d.FreeSlot chain d₂ c) : ∃ g m, d₂ = d.withFat g ∧ d.fat.Expands g chain m ∧ g.InUse c.current ∧
      (c.current ∈ chain ∨ c.current ∈ d.fat.available.take m) ∧
      ∀ name, d.growth chain name = m + d.newClusterCount (lfnEntryCount name) c.startIndex := by
  cases slot with
  | @inside front back x k at_ small used free =>
      subst at_
      obtain ⟨p, -⟩ := @firstFree_inside d front back x k small used free
      have notFull : d.slotsPerCluster * front.length + k ≠ d.slotsPerCluster * (front ++ x :: back).length := by
        rw [List.length_append, List.length_cons, Nat.mul_add, Nat.mul_succ]
        omega
      refine ⟨d.fat, 0, rfl, .refl volume.hint, inUse x (by simp), .inl (by simp), fun name => ?_⟩
      rw [growth, p, if_neg notFull, Nat.mul_add_mod, Nat.mod_eq_of_lt small, Nat.zero_add]
  | @behind last new d₂ at_ used expanded nonzero =>
      have member := List.mem_of_getLast? at_
      obtain ⟨p, -⟩ := firstFree_behind used
      obtain ⟨g, rfl, expands, head⟩ := expandChain_expands volume le_rfl (inUse last member) expanded
      have took := List.mem_of_mem_head? head
      have moved : d.fat.Expands g chain 1 :=
        (Fat.Expands.refl volume.hint).trans expands fun c only => .inl (by rwa [List.mem_singleton.mp only])
      refine ⟨g, 1, rfl, moved, moved.taken new took, .inr took, fun name => ?_⟩
      rw [growth, p, if_pos rfl, Nat.mul_mod_right, Nat.mul_zero]

theorem makeRoom_expands (some : 0 < d.slotsPerCluster) (volume : d.fat.Volume) (inUse : ∀ c ∈ chain, d.fat.InUse c)
    (nonempty : chain ≠ []) (on : d.DirChain chain)
    (done : d.makeRoom fuel (chain.getD 0 0) name stack = .some (.success, d₁, c)) :
    ∃ g, d₁ = d.withFat g ∧ d.fat.Expands g chain (d.growth chain name) := by
  obtain ⟨c₀, cs, rfl⟩ := List.exists_cons_of_ne_nil nonempty
  obtain ⟨d₂, found, rest⟩ := makeRoom_steps done
  obtain ⟨g, m, rfl, expands, current, place, growth⟩ := (findSpace_success some on found).takes volume inUse
  have count : d.newClusterCount (lfnEntryCount name) c.startIndex =
      (d.withFat g).newClusterCount (lfnEntryCount name) c.startIndex := rfl
  rw [growth name, count]
  rcases rest with ⟨none, rfl⟩ | ⟨more, new, expanded⟩
  · rw [none]
    exact ⟨g, rfl, expands⟩
  · obtain ⟨h, rfl, later, -⟩ := expandChain_expands (expands.volume volume) more current expanded
    exact ⟨h, rfl, expands.trans later fun x only => by rwa [List.mem_singleton.mp only]⟩

/-! ## When there is room -/

theorem expandChain_succeeds {e n : Nat} (volume : d.fat.Volume) (pos : 1 ≤ n) (used : d.fat.InUse e)
    (enough : n ≤ d.fat.available.length) : ∃ new d', d.expandChain e n = some (new, d') ∧ new ≠ 0 := by
  obtain ⟨taken, new, g, done, -, -, nonzero, -⟩ := Fat.expand_spec volume pos enough used
  exact ⟨new, d.withFat g, by rw [expandChain, done]; rfl, nonzero⟩

theorem findSpace_created {s : Decoder} {new : Nat} (some : 0 < d.slotsPerCluster) (fuel : Nat) :
    findSpace name (fuel + 1) d new true s = .some (.success, d, ⟨fun _ => 0, new, 0⟩) := by
  obtain ⟨n, slots⟩ := Nat.exists_eq_add_one.mpr some
  rw [findSpace, slotCount_zero, slots, if_pos rfl, searchCluster, if_pos rfl]

theorem findSpace_outcome {c₀ : Nat} {cs : List Nat} {s : Decoder} (some : 0 < d.slotsPerCluster) (on : d.DirChain (c₀ :: cs))
    (enough : cs.length + 1 < fuel) : (∃ c, findSpace name fuel d c₀ false s = .some (.entryExisted, d, c)) ∨
      (∃ c, findSpace name fuel d c₀ false s = .some (.success, d, c)) ∨
      Used (d.dirSlots (c₀ :: cs)) ∧ ∃ last, (c₀ :: cs).getLast? = .some last ∧
        findSpace name fuel d c₀ false s = (d.expandChain last 1).map fun r =>
          if r.1 = 0 then (.notEnoughSpace, r.2, ⟨d.data last, 0, 0⟩) else (.success, r.2, ⟨fun _ => 0, r.1, 0⟩) := by
  induction cs generalizing c₀ fuel s with
  | nil =>
      obtain ⟨fuel, rfl⟩ := Nat.exists_eq_add_one.mpr (Nat.zero_lt_of_lt enough)
      rw [findSpace, slotCount_zero, if_neg Bool.false_ne_true]
      dsimp only
      cases search : searchCluster name (d.data c₀) d.slotsPerCluster 0 s with
      | existed => exact .inl ⟨_, rfl⟩
      | free i => exact .inr (.inl ⟨_, rfl⟩)
      | ended s' =>
          refine .inr (.inr ⟨?_, c₀, rfl, ?_⟩)
          · rw [dirSlots_cons, dirSlots, List.flatMap_nil, List.append_nil]
            exact searchCluster_ended search
          · obtain ⟨fuel, rfl⟩ := Nat.exists_eq_add_one.mpr (Nat.lt_of_succ_lt_succ enough)
            dsimp only
            rw [if_pos (on.ends c₀ rfl)]
            cases expanded : d.expandChain c₀ 1 with
            | none => rfl
            | some r =>
                obtain ⟨g, -, same⟩ := expandChain_fat expanded
                have some' : 0 < r.2.slotsPerCluster := by rwa [same]
                rw [Option.map_some]
                dsimp only
                by_cases zero : r.1 = 0
                · rw [if_pos zero, if_pos zero, zero]
                · rw [if_neg zero, if_neg zero, findSpace_created some' fuel]
  | cons c₂ cs ih =>
      obtain ⟨fuel, rfl⟩ := Nat.exists_eq_add_one.mpr (Nat.zero_lt_of_lt enough)
      rw [findSpace, slotCount_zero, if_neg Bool.false_ne_true]
      dsimp only
      cases search : searchCluster name (d.data c₀) d.slotsPerCluster 0 s with
      | existed => exact .inl ⟨_, rfl⟩
      | free i => exact .inr (.inl ⟨_, rfl⟩)
      | ended s' =>
          obtain ⟨next, notEnd, -⟩ := on.linked.next
          dsimp only
          rw [next, if_neg notEnd]
          rcases ih (s := s') on.tail (Nat.lt_of_succ_lt_succ enough) with found | free | ⟨used, last, isLast, rest⟩
          · exact .inl found
          · exact .inr (.inl free)
          · refine .inr (.inr ⟨?_, last, isLast, rest⟩)
            rw [dirSlots_cons]
            exact Used.append (searchCluster_ended search) used

section
variable (some : 0 < d.slotsPerCluster) (nonempty : chain ≠ []) (on : d.DirChain chain) (enough : chain.length < fuel)
include some nonempty on enough

theorem findSpace_finds : (∃ d' c, findSpace name fuel d (chain.getD 0 0) false (.start stack) = .some (.entryExisted, d', c)) ↔
    d.Finds chain name stack := by
  obtain ⟨c₀, cs, rfl⟩ := List.exists_cons_of_ne_nil nonempty
  exact findSpace_existed some on (Nat.lt_of_succ_lt enough)

theorem makeRoom_finds (finds : d.Finds chain name stack) :
    ∃ c, d.makeRoom fuel (chain.getD 0 0) name stack = .some (.entryExisted, d, c) := by
  obtain ⟨d', c, found⟩ := (findSpace_finds some nonempty on enough).mpr finds
  have same : d' = d := by
    obtain ⟨c₀, cs, rfl⟩ := List.exists_cons_of_ne_nil nonempty
    rcases findSpace_outcome some on enough with ⟨_, existed⟩ | ⟨_, free⟩ | ⟨-, last, -, rest⟩
    · cases existed.symm.trans found
      rfl
    · cases free.symm.trans found
    · obtain ⟨r, -, made⟩ := Option.map_eq_some_iff.mp (rest.symm.trans found)
      split_ifs at made <;> cases made
  rw [same] at found
  refine ⟨c, ?_⟩
  rw [makeRoom, found]

variable (volume : d.fat.Volume) (inUse : ∀ c ∈ chain, d.fat.InUse c)
include volume inUse

theorem makeRoom_succeeds (absent : ¬ d.Finds chain name stack) (room : d.growth chain name ≤ d.fat.available.length) :
    ∃ d₁ c, d.makeRoom fuel (chain.getD 0 0) name stack = .some (.success, d₁, c) := by
  have found : ∃ d₂ c, findSpace name fuel d (chain.getD 0 0) false (.start stack) = .some (.success, d₂, c) := by
    have notFound := mt (findSpace_finds some nonempty on enough).mp absent
    obtain ⟨c₀, cs, rfl⟩ := List.exists_cons_of_ne_nil nonempty
    rcases findSpace_outcome some on enough with ⟨c, existed⟩ | ⟨c, free⟩ | ⟨used, last, isLast, rest⟩
    · exact absurd ⟨d, c, existed⟩ notFound
    · exact ⟨d, c, free⟩
    · have full := (firstFree_behind used).1
      rw [growth, if_pos full] at room
      obtain ⟨new, d₂, expanded, nonzero⟩ := expandChain_succeeds (n := 1) volume le_rfl
        (inUse last (List.mem_of_getLast? isLast)) (by omega)
      rw [expanded, Option.map_some, if_neg nonzero] at rest
      exact ⟨d₂, _, rest⟩
  obtain ⟨d₂, c, found⟩ := found
  have slot : d.FreeSlot chain d₂ c := by
    obtain ⟨c₀, cs, rfl⟩ := List.exists_cons_of_ne_nil nonempty
    exact findSpace_success some on found
  obtain ⟨g, m, rfl, expands, current, -, growth⟩ := slot.takes volume inUse
  rw [makeRoom, found]
  dsimp only
  split_ifs with more
  · have left : (d.withFat g).newClusterCount (lfnEntryCount name) c.startIndex ≤ (d.withFat g).fat.available.length := by
      have total := growth name
      have fewer := congrArg List.length expands.available
      rw [List.length_drop] at fewer
      change d.newClusterCount (lfnEntryCount name) c.startIndex ≤ g.available.length
      omega
    obtain ⟨new, d₁, expanded, nonzero⟩ := expandChain_succeeds (d := d.withFat g) (expands.volume volume) more current left
    rw [expanded]
    dsimp only
    rw [if_neg nonzero]
    exact ⟨d₁, c, rfl⟩
  · exact ⟨_, c, rfl⟩

end

/-! ## The entries -/

variable {parent : Nat} {startCluster size : UInt32} {attr : UInt8} {clock : Clock} {newNode node : FsNode}
  {slots : List (List UInt8)} {p count : Nat}
  {chain' : List Nat} {err : DirErr}

theorem shortEntry_ends (name : Name) (startCluster : UInt32) (attr : UInt8) (size : UInt32) (clock : Clock) (reserved : UInt8) :
    ∃ dir, shortEntry name startCluster attr size clock reserved = some dir := by
  obtain ⟨created, made⟩ := gmtime_ends clock.time
  obtain ⟨never, made'⟩ := gmtime_ends 0
  rw [shortEntry, made, made']
  exact ⟨_, rfl⟩

theorem writeEntries_ends (d : Disk) (c : Cursor) (name : Name) (startCluster : UInt32) (attr : UInt8) (size : UInt32)
    (clock : Clock) (old : Bytes) : ∃ d' node, d.writeEntries c name startCluster attr size clock old = some (d', node) := by
  rw [writeEntries]
  obtain ⟨dir, made⟩ := shortEntry_ends name startCluster attr size clock ((putLfnEntries name (lfnEntryCount name)
    (genChecksum (shortName name (attr &&& fatAttrDirectory ≠ 0))) (lfnEntryCount name) d c).2.directory
      ((putLfnEntries name (lfnEntryCount name) (genChecksum (shortName name (attr &&& fatAttrDirectory ≠ 0)))
        (lfnEntryCount name) d c).2.startIndex + 12))
  dsimp only
  rw [made]
  exact ⟨_, _, rfl⟩

theorem writeEntries_node {old : Bytes} (written : d.writeEntries c name startCluster attr size clock old = some (d', node)) :
    node.name = patch old 0 (name ++ [0]) ∧ node.flags = toFsNodeFlags attr ∧ node.size = size ∧ node.startCluster = startCluster := by
  rw [writeEntries] at written
  obtain ⟨dir, -, written⟩ := Option.bind_eq_some_iff.mp written
  cases written
  exact ⟨rfl, rfl, rfl, rfl⟩

theorem addEntry_node (added : d.fat32AddEntry fuel parent name startCluster attr size newNode clock stack = some (.success, d', node)) :
    node.name = patch newNode.name 0 (name ++ [0]) ∧ node.flags = toFsNodeFlags attr ∧ node.size = size ∧
      node.startCluster = startCluster := by
  obtain ⟨d₁, c, -, written⟩ := addEntry_steps added
  exact writeEntries_node written

theorem putEntry_fat (d : Disk) (c : Cursor) (entry : List UInt8) :
    (d.putEntry c entry).1.fat = d.fat ∧ (d.putEntry c entry).1.sectorsPerCluster = d.sectorsPerCluster := by
  unfold putEntry
  dsimp only
  split_ifs
  · exact ⟨rfl, rfl⟩
  · exact ⟨rfl, rfl⟩

theorem putAll_fat (slots : List (List UInt8)) (d : Disk) (c : Cursor) :
    ((putAll slots d c).1.finish (putAll slots d c).2).fat = d.fat ∧
      ((putAll slots d c).1.finish (putAll slots d c).2).sectorsPerCluster = d.sectorsPerCluster := by
  induction slots generalizing d c with
  | nil =>
      unfold putAll finish
      split_ifs
      · exact ⟨rfl, rfl⟩
      · exact ⟨rfl, rfl⟩
  | cons slot slots ih =>
      obtain ⟨fat, sectors⟩ := ih (d.putEntry c slot).1 (d.putEntry c slot).2
      obtain ⟨fat', sectors'⟩ := putEntry_fat d c slot
      exact ⟨fat.trans fat', sectors.trans sectors'⟩

theorem Room.others (sized : d.Sized) (room : d.Room d₁ c count chain chain' p) (below : ∀ x ∈ chain', x < fatBadCluster)
    (few : count ≤ 20) (lengths : ∀ slot ∈ slots, slot.length = 32) (length : slots.length = count + 1) {x : Nat}
    (outside : x ∉ chain') (small : x < fatEoc) : ((putAll slots d₁ c).1.finish (putAll slots d₁ c).2).data x = d.data x := by
  rw [← room.data]
  by_cases fits : p + slots.length ≤ d.slotsPerCluster * chain'.length
  · obtain ⟨front, back, k, rfl, inside, start, rfl, -, -⟩ := room.position
    have perCluster : d₁.slotsPerCluster = d.slotsPerCluster := by
      rw [slotsPerCluster_eq, slotsPerCluster_eq, room.sectors]
    have here := room.on.drop front.length
    rw [List.drop_left] at here
    rw [List.length_append, List.length_cons, Nat.mul_add, Nat.mul_succ] at fits
    exact (putAll_written here.nodup (here.linked.imp fun _ _ next => next.1) start (by omega) lengths
      (by rw [perCluster]; omega)).others x fun member => outside (List.mem_append_right _ member)
  · obtain ⟨front, k, rfl, -, -, -, -, ends, written⟩ := room.overflow_written sized below few lengths length fits
    refine written.others x fun member => ?_
    rcases List.mem_cons.mp member with rfl | last
    · exact outside (by simp)
    · rw [List.mem_singleton.mp last] at small
      omega

/-! ## More rounds -/

theorem findSpace_more {fuel' current : Nat} {created : Bool} {s : Decoder} {r : DirErr × Disk × Cursor} (more : fuel ≤ fuel')
    (found : findSpace name fuel d current created s = some r) : findSpace name fuel' d current created s = some r := by
  induction fuel generalizing fuel' d current created s with
  | zero => cases found
  | succ fuel ih =>
      obtain ⟨fuel', rfl⟩ := Nat.exists_eq_add_one.mpr (Nat.zero_lt_of_lt more)
      have more := Nat.succ_le_succ_iff.mp more
      rw [findSpace] at found ⊢
      dsimp only at found ⊢
      split at found
      · exact found
      · exact found
      · by_cases ends : d.fat.getFatEntry current ≥ fatEoc
        · rw [if_pos ends] at found ⊢
          split at found
          · cases found
          · rename_i new d₂ expanded
            by_cases zero : new = 0
            · rw [if_pos zero] at found ⊢
              exact found
            · rw [if_neg zero] at found ⊢
              exact ih more found
        · rw [if_neg ends] at found ⊢
          exact ih more found

theorem addEntry_more {fuel' : Nat} {r : DirErr × Disk × FsNode} (more : fuel ≤ fuel')
    (added : d.fat32AddEntry fuel parent name startCluster attr size newNode clock stack = some r) :
    d.fat32AddEntry fuel' parent name startCluster attr size newNode clock stack = some r := by
  obtain ⟨⟨err, d₁, c⟩, room, rest⟩ := Option.bind_eq_some_iff.mp added
  obtain ⟨⟨err', d₂, c₂⟩, found⟩ : ∃ s, findSpace name fuel d parent false (.start stack) = some s := by
    rw [makeRoom] at room
    split at room
    · exact ⟨_, ‹_›⟩
    · exact ⟨_, room⟩
  have room' : d.makeRoom fuel' parent name stack = some (err, d₁, c) := by
    rw [makeRoom, found] at room
    rw [makeRoom, findSpace_more more found]
    exact room
  exact Option.bind_eq_some_iff.mpr ⟨_, room', rest⟩

/-- What a call that adds an entry changes. -/
structure Enters (d d' : Disk) (chain : List Nat) (name : Name) : Prop where
  fat : d.fat.Expands d'.fat chain (d.growth chain name)
  sectors : d'.sectorsPerCluster = d.sectorsPerCluster
  data : ∀ x ∉ d.grownChain chain name, x < fatEoc → d'.data x = d.data x

section
variable (sized : d.Sized) (volume : d.fat.Volume) (inUse : ∀ c ∈ chain, d.fat.InUse c) (nonempty : chain ≠ [])
  (on : d.DirChain chain)
include sized volume inUse nonempty on

theorem addEntry_enters (short : name.length < filenameLimit)
    (added : d.fat32AddEntry fuel (chain.getD 0 0) name startCluster attr size newNode clock stack = some (.success, d', node)) :
    d.Enters d' chain name := by
  have some := sized.slots
  obtain ⟨d₁, c, done, written⟩ := addEntry_steps added
  obtain ⟨dir, reserved, -, rfl⟩ := writeEntries_eq written
  have room := makeRoom_room (by omega) volume inUse nonempty on done
  obtain ⟨g, rfl, expands⟩ := makeRoom_expands (by omega) volume inUse nonempty on done
  obtain ⟨fat, sectors⟩ := putAll_fat (newSlots name attr dir) (d.withFat g) c
  refine ⟨?_, sectors, fun x outside small => ?_⟩
  · rw [fat]
    exact expands
  · exact room.others sized (grownChain_below volume inUse) (lfnEntryCount_le short) (fun slot member => newSlots_lengths member)
      (length_newSlots ..) outside small

variable (enough : chain.length < fuel)

omit volume inUse in
include enough in
theorem addEntry_finds (finds : d.Finds chain name stack) (startCluster : UInt32) (attr : UInt8) (size : UInt32) (newNode : FsNode)
    (clock : Clock) : d.fat32AddEntry fuel (chain.getD 0 0) name startCluster attr size newNode clock stack =
      some (.entryExisted, d, { newNode with flags := 0 }) := by
  have some := sized.slots
  obtain ⟨c, done⟩ := makeRoom_finds (by omega) nonempty on enough finds
  rw [fat32AddEntry, done]
  rfl

include enough in
theorem addEntry_succeeds (absent : ¬ d.Finds chain name stack) (room : d.growth chain name ≤ d.fat.available.length)
    (startCluster : UInt32) (attr : UInt8) (size : UInt32) (newNode : FsNode) (clock : Clock) :
    ∃ d' node, d.fat32AddEntry fuel (chain.getD 0 0) name startCluster attr size newNode clock stack = some (.success, d', node) := by
  have some := sized.slots
  obtain ⟨d₁, c, done⟩ := makeRoom_succeeds (by omega) nonempty on enough volume inUse absent room
  obtain ⟨d', node, written⟩ := writeEntries_ends d₁ c name startCluster attr size clock newNode.name
  rw [fat32AddEntry, done]
  refine ⟨d', node, ?_⟩
  change (d₁.writeEntries c name startCluster attr size clock newNode.name).bind _ = _
  rw [written]
  rfl

omit sized volume inUse nonempty on in
theorem addEntry_error (failed : err ≠ .success) :
    (∃ d' node, d.fat32AddEntry fuel parent name startCluster attr size newNode clock stack = some (err, d', node)) ↔
      ∃ d' c, d.makeRoom fuel parent name stack = some (err, d', c) := by
  constructor
  · rintro ⟨d', node, added⟩
    rw [fat32AddEntry] at added
    obtain ⟨⟨err', d₁, c⟩, room, added⟩ := Option.bind_eq_some_iff.mp added
    dsimp only at added
    by_cases success : err' = .success
    · rw [if_neg (not_not.mpr success)] at added
      obtain ⟨_, _, added⟩ := Option.bind_eq_some_iff.mp added
      cases added
      exact absurd rfl failed
    · rw [if_pos success] at added
      cases added
      exact ⟨d', c, room⟩
  · rintro ⟨d', c, room⟩
    rw [fat32AddEntry, room]
    exact ⟨d', { newNode with flags := 0 }, if_pos failed⟩

theorem addEntry_fails (failed : err ≠ .success)
    (added : d.fat32AddEntry fuel (chain.getD 0 0) name startCluster attr size newNode clock stack = some (err, d', node)) :
    d.Finds chain name stack := by
  have some := sized.slots
  obtain ⟨d₁, c, done⟩ := (addEntry_error failed).mp ⟨d', node, addEntry_more (Nat.le_add_left fuel (chain.length + 1)) added⟩
  by_contra absent
  have notFound := mt (findSpace_finds (by omega) nonempty on (show chain.length < chain.length + 1 + fuel by omega)).mp absent
  have slot : ∀ {d₂ c}, findSpace name (chain.length + 1 + fuel) d (chain.getD 0 0) false (.start stack) = .some (.success, d₂, c) →
      d.FreeSlot chain d₂ c := by
    obtain ⟨c₀, cs, rfl⟩ := List.exists_cons_of_ne_nil nonempty
    exact fun found => findSpace_success (by omega) on found
  rw [makeRoom] at done
  split at done
  · rename_i d₂ c₂ found
    obtain ⟨g, m, rfl, expands, current, -, -⟩ := (slot found).takes volume inUse
    dsimp only at done
    split_ifs at done with more
    · split at done
      · cases done
      · rename_i new d₃ expanded
        rw [if_neg (expandChain_nonzero (d := d.withFat g) (expands.volume volume) more current expanded)] at done
        cases done
        exact failed rfl
    · cases done
      exact failed rfl
  · obtain ⟨c₀, cs, rfl⟩ := List.exists_cons_of_ne_nil nonempty
    rcases findSpace_outcome (by omega) on (show cs.length + 1 < cs.length + 1 + 1 + fuel by omega) with
      ⟨c, existed⟩ | ⟨c, free⟩ | ⟨used, last, isLast, rest⟩
    · exact notFound ⟨d, c, existed⟩
    · cases free.symm.trans done
      exact failed rfl
    · obtain ⟨⟨new, d₂⟩, expanded, made⟩ := Option.map_eq_some_iff.mp (rest.symm.trans done)
      dsimp only at made
      rw [if_neg (expandChain_nonzero volume le_rfl (inUse last (List.mem_of_getLast? isLast)) expanded)] at made
      cases made
      exact failed rfl

theorem addEntry_failed (failed : err ≠ .success)
    (added : d.fat32AddEntry fuel (chain.getD 0 0) name startCluster attr size newNode clock stack = some (err, d', node)) :
    d.Finds chain name stack ∧ err = .entryExisted ∧ d' = d := by
  have finds := addEntry_fails sized volume inUse nonempty on failed added
  have found := addEntry_finds sized nonempty on (show chain.length < chain.length + 1 + fuel by omega) finds startCluster attr size
    newNode clock
  cases found.symm.trans (addEntry_more (Nat.le_add_left fuel (chain.length + 1)) added)
  exact ⟨finds, rfl, rfl⟩

/-- The name is found, or there is room and the entry is added, or the search for clusters has no result. -/
theorem addEntry_outcome (short : name.length < filenameLimit) (enough : chain.length < fuel) (stack : Int → UInt8)
    (startCluster : UInt32) (attr : UInt8) (size : UInt32) (newNode : FsNode) (clock : Clock) :
    (d.Finds chain name stack ∧ d.fat32AddEntry fuel (chain.getD 0 0) name startCluster attr size newNode clock stack =
        some (.entryExisted, d, { newNode with flags := 0 })) ∨
      (¬ d.Finds chain name stack ∧ d.growth chain name ≤ d.fat.available.length ∧
        ∃ d' node, d.fat32AddEntry fuel (chain.getD 0 0) name startCluster attr size newNode clock stack = some (.success, d', node)) ∨
      (¬ d.Finds chain name stack ∧ ¬ d.growth chain name ≤ d.fat.available.length ∧
        d.fat32AddEntry fuel (chain.getD 0 0) name startCluster attr size newNode clock stack = none) := by
  by_cases finds : d.Finds chain name stack
  · exact .inl ⟨finds, addEntry_finds sized nonempty on enough finds startCluster attr size newNode clock⟩
  · by_cases room : d.growth chain name ≤ d.fat.available.length
    · exact .inr (.inl ⟨finds, room,
        addEntry_succeeds sized volume inUse nonempty on enough finds room startCluster attr size newNode clock⟩)
    · refine .inr (.inr ⟨finds, room, ?_⟩)
      cases added : d.fat32AddEntry fuel (chain.getD 0 0) name startCluster attr size newNode clock stack with
      | none => rfl
      | some r =>
          obtain ⟨err, d', node⟩ := r
          by_cases success : err = .success
          · subst success
            exact absurd (addEntry_enters sized volume inUse nonempty on short added).fat.enough room
          · exact absurd (addEntry_failed sized volume inUse nonempty on success added).1 finds

end

end Disk
end Kerosene.Fat32
