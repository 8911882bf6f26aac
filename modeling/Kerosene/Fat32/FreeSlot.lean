import Kerosene.Fat32.Growth
import Kerosene.Fat32.Listing

/-!
# The search for a free slot

When `fat32_add_entry` finds room, it stands at the first slot that was never used, or at the start of a new cluster
behind a full chain.
-/

namespace Kerosene.Fat32
open Lib
open Ramfs (Name)
variable {name : Name} {directory : Bytes} {n i j : Nat} {s : Decoder} {slots slots' tail tail' : List (List UInt8)}

/-- No slot ends the entries. -/
def Used (slots : List (List UInt8)) : Prop := ∀ slot ∈ slots, slot.getD 0 0 ≠ 0x00

theorem Used.append (front : Used slots) (back : Used slots') : Used (slots ++ slots') := fun slot member =>
  (List.mem_append.mp member).elim (front slot) (back slot)

theorem takeWhile_used (used : Used slots) (stops : Stops tail) :
    (slots ++ tail).takeWhile (fun slot => slot.getD 0 0 ≠ 0x00) = slots := by
  rw [List.takeWhile_append_of_pos fun slot member => decide_eq_true (used slot member)]
  cases tail with
  | nil => rw [List.takeWhile_nil, List.append_nil]
  | cons slot tail =>
      have free : ¬ decide (slot.getD 0 0 ≠ 0x00) = true := fun inUse => of_decide_eq_true inUse (stops slot rfl)
      rw [List.takeWhile_cons, if_neg free, List.append_nil]

theorem length_takeWhile_used (used : Used slots) (tail : List (List UInt8)) :
    ((slots ++ tail).takeWhile fun slot => slot.getD 0 0 ≠ 0x00).length =
      slots.length + (tail.takeWhile fun slot => slot.getD 0 0 ≠ 0x00).length := by
  rw [List.takeWhile_append_of_pos fun slot member => decide_eq_true (used slot member), List.length_append]

theorem used_slotsFrom_succ (head : directory i ≠ 0x00) (rest : Used (slotsFrom directory (i + 32) n)) :
    Used (slotsFrom directory i (n + 1)) := by
  rw [slotsFrom_succ]
  refine List.forall_mem_cons.mpr ⟨?_, rest⟩
  rwa [slotAt_getD (by decide)]

theorem searchCluster_succ (name : Name) (directory : Bytes) (n i : Nat) (s : Decoder) :
    directory i = 0x00 ∧ searchCluster name directory (n + 1) i s = .free i ∨
      directory i ≠ 0x00 ∧ (searchCluster name directory (n + 1) i s = .existed ∨
        ∃ s', searchCluster name directory (n + 1) i s = searchCluster name directory n (i + 32) s') := by
  rw [searchCluster]
  dsimp only
  split_ifs with free
  · exact .inl ⟨free, rfl⟩
  all_goals first
    | exact .inr ⟨free, .inl rfl⟩
    | exact .inr ⟨free, .inr ⟨_, rfl⟩⟩

theorem searchCluster_free (found : searchCluster name directory n i s = .free j) :
    ∃ m < n, j = i + 32 * m ∧ Used (slotsFrom directory i m) ∧ directory j = 0x00 := by
  induction n generalizing i s with
  | zero => cases found
  | succ n ih =>
      rcases searchCluster_succ name directory n i s with ⟨free, here⟩ | ⟨head, existed | ⟨s', pass⟩⟩
      · cases here.symm.trans found
        exact ⟨0, Nat.succ_pos n, rfl, by rintro _ ⟨⟩, free⟩
      · cases existed.symm.trans found
      · obtain ⟨m, inside, rfl, used, free⟩ := ih (pass.symm.trans found)
        exact ⟨m + 1, by omega, by omega, used_slotsFrom_succ head used, free⟩

theorem searchCluster_ended {s' : Decoder} (past : searchCluster name directory n i s = .ended s') :
    Used (slotsFrom directory i n) := by
  induction n generalizing i s with
  | zero => rintro _ ⟨⟩
  | succ n ih =>
      rcases searchCluster_succ name directory n i s with ⟨_, here⟩ | ⟨head, existed | ⟨s', pass⟩⟩
      · cases here.symm.trans past
      · cases existed.symm.trans past
      · exact used_slotsFrom_succ head (ih (pass.symm.trans past))

namespace Disk
variable {d d' : Disk} {c : Cursor} {c₀ : Nat} {cs chain : List Nat}

/-- Where a successful search stops. -/
inductive FreeSlot (d : Disk) (chain : List Nat) : Disk → Cursor → Prop
  | inside {front back : List Nat} {x k : Nat} (at_ : chain = front ++ x :: back) (small : k < d.slotsPerCluster)
      (used : Used (d.dirSlots front ++ slotsFrom (d.data x) 0 k)) (free : d.data x (32 * k) = 0x00) :
      FreeSlot d chain d ⟨d.data x, x, 32 * k⟩
  | behind {last new : Nat} {d' : Disk} (at_ : chain.getLast? = some last) (used : Used (d.dirSlots chain))
      (expanded : d.expandChain last 1 = some (new, d')) (nonzero : new ≠ 0) : FreeSlot d chain d' ⟨fun _ => 0, new, 0⟩

theorem slotCount_zero (d : Disk) : d.slotCount 0 = d.slotsPerCluster := slotCount_eq d 0

theorem findSpace_new {fuel new : Nat} (some : 0 < d.slotsPerCluster)
    (found : findSpace name fuel d new true s = .some (.success, d', c)) : d' = d ∧ c = ⟨fun _ => 0, new, 0⟩ := by
  cases fuel with
  | zero => cases found
  | succ fuel =>
      obtain ⟨n, slots⟩ := Nat.exists_eq_add_one.mpr some
      rw [findSpace, slotCount_zero, slots, if_pos rfl, searchCluster, if_pos rfl] at found
      cases found
      exact ⟨rfl, rfl⟩

theorem findSpace_success {fuel : Nat} (some : 0 < d.slotsPerCluster) (on : d.DirChain (c₀ :: cs))
    (found : findSpace name fuel d c₀ false s = .some (.success, d', c)) : d.FreeSlot (c₀ :: cs) d' c := by
  induction fuel generalizing c₀ cs s with
  | zero => cases found
  | succ fuel ih =>
      rw [findSpace, slotCount_zero, if_neg Bool.false_ne_true] at found
      dsimp only at found
      cases search : searchCluster name (d.data c₀) d.slotsPerCluster 0 s with
      | existed =>
          rw [search] at found
          cases found
      | free j =>
          rw [search] at found
          cases found
          obtain ⟨m, inside, rfl, used, free⟩ := searchCluster_free search
          rw [Nat.zero_add] at free ⊢
          exact @FreeSlot.inside _ _ [] _ _ _ rfl inside used free
      | ended s' =>
          have used := searchCluster_ended search
          rw [search] at found
          dsimp only at found
          cases cs with
          | nil =>
              rw [if_pos (on.ends c₀ rfl)] at found
              cases expanded : d.expandChain c₀ 1 with
              | none =>
                  rw [expanded] at found
                  cases found
              | some r =>
                  obtain ⟨new, d₁⟩ := r
                  rw [expanded] at found
                  dsimp only at found
                  by_cases zero : new = 0
                  · rw [if_pos zero] at found
                    cases found
                  · rw [if_neg zero] at found
                    have same : d₁.slotsPerCluster = d.slotsPerCluster := by
                      obtain ⟨⟨_, fat⟩, _, made⟩ := Option.map_eq_some_iff.mp expanded
                      cases made
                      rfl
                    obtain ⟨rfl, rfl⟩ := findSpace_new (by rw [same]; exact some) found
                    refine .behind rfl ?_ expanded zero
                    rw [dirSlots_cons, dirSlots, List.flatMap_nil, List.append_nil]
                    exact used
          | cons c₂ cs =>
              obtain ⟨next, notEnd, -⟩ := on.linked.next
              rw [next, if_neg notEnd] at found
              cases ih on.tail found with
              | @inside front back x k at_ small used' free =>
                  refine @FreeSlot.inside _ _ (c₀ :: front) _ _ _ (by rw [at_]; rfl) small ?_ free
                  rw [dirSlots_cons, List.append_assoc]
                  exact Used.append used used'
              | behind last used' expanded nonzero =>
                  refine .behind (by rwa [List.getLast?_cons_cons]) ?_ expanded nonzero
                  rw [dirSlots_cons]
                  exact Used.append used used'

/-! ## The chain of the directory -/

theorem dirChain_seg (below : ∀ c ∈ chain, c < fatBadCluster) : d.DirChain chain ↔ Seg d.fat.link chain.head? chain none := by
  have next : ∀ {a b : Nat}, b < fatBadCluster → (d.fat.link a = .some b ↔ d.fat.getFatEntry a = b ∧ b < fatBadCluster) := by
    intro a b notBad
    have small : b < fatEoc := notBad.trans (by decide)
    rw [Fat.link]
    split_ifs with notEnd
    · exact ⟨fun same => ⟨Option.some.inj same, notBad⟩, fun h => congrArg _ h.1⟩
    · refine ⟨fun empty => (by cases empty), fun h => absurd ?_ notEnd⟩
      rw [h.1]
      exact small
  have last : ∀ {a : Nat}, d.fat.link a = none ↔ d.fat.getFatEntry a ≥ fatEoc := by
    intro a
    rw [Fat.link, ge_iff_le, ← not_lt]
    split_ifs with notEnd
    · exact ⟨fun empty => (by cases empty), fun no => absurd notEnd no⟩
    · exact ⟨fun _ => notEnd, fun _ => rfl⟩
  constructor
  · intro on
    induction chain with
    | nil => rfl
    | cons c chain ih =>
        obtain ⟨-, later⟩ := List.forall_mem_cons.mp below
        refine ⟨rfl, ?_⟩
        cases chain with
        | nil => exact last.mpr (on.ends c rfl)
        | cons c₂ chain =>
            rw [(next (later c₂ List.mem_cons_self)).mpr (List.isChain_cons_cons.mp on.linked).1]
            exact ih later on.tail
  · intro seg
    have nodup := seg.nodup
    induction chain with
    | nil => exact ⟨.nil, by rintro _ ⟨⟩, nodup⟩
    | cons c chain ih =>
        obtain ⟨-, later⟩ := List.forall_mem_cons.mp below
        obtain ⟨-, rest⟩ := seg
        cases chain with
        | nil =>
            refine ⟨.singleton c, ?_, nodup⟩
            rintro _ ⟨⟩
            exact last.mp rest
        | cons c₂ chain =>
            have on := ih later (rest.head ▸ rest) nodup.tail
            have first : d.fat.link c = .some c₂ := rest.1
            refine ⟨List.isChain_cons_cons.mpr ⟨(next (later c₂ List.mem_cons_self)).mp first, on.linked⟩, ?_, nodup⟩
            intro b isLast
            rw [List.getLast?_cons_cons] at isLast
            exact on.ends b isLast

theorem DirChain.grow {g : Fat} {front back taken : List Nat} {x : Nat} (volume : d.fat.Volume)
    (inUse : ∀ c ∈ front ++ x :: back, d.fat.InUse c) (on : d.DirChain (front ++ x :: back)) (grows : d.fat.Grows g x taken) :
    (d.withFat g).DirChain (front ++ x :: taken) := by
  have below : ∀ c ∈ front ++ x :: back, c < fatBadCluster := fun c member => volume.below (inUse c member).data
  have seg := (dirChain_seg below).mp on
  obtain ⟨middle, left, here⟩ := seg_append.mp seg
  have heads : (front ++ x :: taken).head? = (front ++ x :: back).head? := by
    cases front <;> rfl
  refine (dirChain_seg fun c member => ?_).mpr ?_
  · have old : c ∈ front ++ x :: back ∨ c ∈ taken := by
      simp only [List.mem_append, List.mem_cons] at member ⊢
      tauto
    exact old.elim (below c) fun took => volume.below (grows.free c took).data
  · rw [heads]
    refine seg_append.mpr ⟨middle, left.congr fun c member => Fat.link_congr (grows.same c ?_ ?_), ?_⟩
    · rintro rfl
      exact (List.nodup_append'.mp on.nodup).2.2 member List.mem_cons_self
    · exact fun took => (inUse c (List.mem_append_left _ member)).notFree' (grows.free c took)
    · rw [here.1]
      exact grows.links

/-! ## The clusters that `fat32_add_entry` has to write in -/

/-- The number of slots in front of the first one that was never used. -/
def firstFree (d : Disk) (chain : List Nat) : Nat := ((d.dirSlots chain).takeWhile fun slot => slot.getD 0 0 ≠ 0x00).length

theorem firstFree_le (d : Disk) (chain : List Nat) : d.firstFree chain ≤ d.slotsPerCluster * chain.length := by
  rw [← length_dirSlots]
  exact (List.takeWhile_prefix _).length_le

theorem used_take_firstFree (d : Disk) (chain : List Nat) : Used ((d.dirSlots chain).take (d.firstFree chain)) := by
  intro slot member
  rw [firstFree, ← List.prefix_iff_eq_take.mp (List.takeWhile_prefix _)] at member
  have inUse := List.mem_takeWhile_imp member
  exact of_decide_eq_true inUse

/-- The chain that the entries of `name` are written in. The clusters that it grows by are the first free ones. -/
def grownChain (d : Disk) (chain : List Nat) (name : Name) : List Nat :=
  let p := d.firstFree chain
  let count := d.newClusterCount (lfnEntryCount name) (32 * (p % d.slotsPerCluster))
  if p = d.slotsPerCluster * chain.length then chain ++ d.fat.available.take (1 + count)
  else if count = 0 then chain
  else chain.take (p / d.slotsPerCluster + 1) ++ d.fat.available.take count

/-- All is ready for `count` long-name entries: `c` stands at slot `p` of `chain'`. -/
structure Room (d d₁ : Disk) (c : Cursor) (count : Nat) (chain chain' : List Nat) (p : Nat) : Prop where
  on : d₁.DirChain chain'
  position : ∃ front back k, chain' = front ++ c.current :: back ∧ k < d.slotsPerCluster ∧ c.startIndex = 32 * k ∧
    p = d.slotsPerCluster * front.length + k ∧
    d.dirSlots front ++ slotsFrom c.directory 0 k = (d.dirSlots chain).take p ∧
    d.newClusterCount count (32 * k) ≤ back.length
  data : d₁.data = d.data
  sectors : d₁.sectorsPerCluster = d.sectorsPerCluster

theorem firstFree_eq {used tail : List (List UInt8)} (split : d.dirSlots chain = used ++ tail) (isUsed : Used used)
    (stops : Stops tail) : d.firstFree chain = used.length := by
  rw [firstFree, split, takeWhile_used isUsed stops]

theorem slotsFrom_split {k : Nat} (small : k < n) (directory : Bytes) :
    slotsFrom directory 0 n = slotsFrom directory 0 k ++ slotAt directory (32 * k) :: slotsFrom directory (32 * (k + 1)) (n - k - 1) := by
  have row := drop_slotsFrom directory 0 n k
  obtain ⟨m, last⟩ : ∃ m, n - k = m + 1 := Nat.exists_eq_add_one.mpr (by omega)
  have front : (slotsFrom directory 0 n).take k = slotsFrom directory 0 k := by
    rw [slotsFrom, ← List.map_take, List.take_range, Nat.min_eq_left small.le, slotsFrom]
  rw [← List.take_append_drop k (slotsFrom directory 0 n), front, row, last, slotsFrom_succ, Nat.zero_add, Nat.add_sub_cancel,
    Nat.mul_succ]

theorem firstFree_inside {front back : List Nat} {x k : Nat} (small : k < d.slotsPerCluster)
    (used : Used (d.dirSlots front ++ slotsFrom (d.data x) 0 k)) (free : d.data x (32 * k) = 0x00) :
    d.firstFree (front ++ x :: back) = d.slotsPerCluster * front.length + k ∧
      (d.dirSlots (front ++ x :: back)).take (d.firstFree (front ++ x :: back)) =
        d.dirSlots front ++ slotsFrom (d.data x) 0 k := by
  let tail := slotAt (d.data x) (32 * k) :: (slotsFrom (d.data x) (32 * (k + 1)) (d.slotsPerCluster - k - 1) ++ d.dirSlots back)
  have split : d.dirSlots (front ++ x :: back) = d.dirSlots front ++ slotsFrom (d.data x) 0 k ++ tail := by
    rw [dirSlots, List.flatMap_append, List.flatMap_cons, clusterSlots, slotsFrom_split small]
    simp [tail, dirSlots]
  have stops : Stops tail := by
    rintro slot ⟨⟩
    rw [slotAt_getD (by decide), Nat.add_zero, free]
  have p := firstFree_eq split used stops
  refine ⟨?_, by rw [p, split, List.take_left]⟩
  rw [p, List.length_append, length_dirSlots, slotsFrom, List.length_map, List.length_range]

theorem firstFree_behind (used : Used (d.dirSlots chain)) :
    d.firstFree chain = d.slotsPerCluster * chain.length ∧ (d.dirSlots chain).take (d.firstFree chain) = d.dirSlots chain := by
  have p := @firstFree_eq _ _ _ [] (List.append_nil _).symm used (by rintro _ ⟨⟩)
  exact ⟨p.trans (length_dirSlots d chain), by rw [p, List.take_length]⟩

theorem expandChain_fat {e n new : Nat} (expanded : d.expandChain e n = some (new, d')) :
    ∃ g, d.fat.expandClusterChain e n = some (new, g) ∧ d' = d.withFat g := by
  obtain ⟨⟨_, fat⟩, done, made⟩ := Option.map_eq_some_iff.mp expanded
  cases made
  exact ⟨fat, done, rfl⟩

theorem expandChain_grows {e n new : Nat} (volume : d.fat.Volume) (pos : 1 ≤ n) (used : d.fat.InUse e)
    (expanded : d.expandChain e n = some (new, d')) : ∃ g, d' = d.withFat g ∧ (d.fat.available.take n).head? = some new ∧
      d.fat.Grows g e (d.fat.available.take n) ∧ g.available = d.fat.available.drop n ∧
      (d.fat.available.take n).length = n := by
  obtain ⟨g, done, rfl⟩ := expandChain_fat expanded
  obtain ⟨head, grows, -⟩ := Fat.expand_takes volume pos used done
  exact ⟨g, rfl, head, grows, Fat.expand_drops volume pos used done, List.length_take_of_le (Fat.expand_enough done)⟩

variable {d₁ : Disk}

theorem makeRoom_steps {fuel parent : Nat} {stack : Int → UInt8}
    (done : d.makeRoom fuel parent name stack = some (.success, d₁, c)) :
    ∃ d₂, findSpace name fuel d parent false (.start stack) = some (.success, d₂, c) ∧
      (d₂.newClusterCount (lfnEntryCount name) c.startIndex = 0 ∧ d₁ = d₂ ∨
        0 < d₂.newClusterCount (lfnEntryCount name) c.startIndex ∧ ∃ new,
          d₂.expandChain c.current (d₂.newClusterCount (lfnEntryCount name) c.startIndex) = some (new, d₁)) := by
  rw [makeRoom] at done
  split at done
  · rename_i d₂ c₂ found
    dsimp only at done
    split_ifs at done with more
    · split at done
      · cases done
      · rename_i valid d₃ expanded
        by_cases zero : valid = 0
        · rw [if_pos zero] at done
          cases done
        · rw [if_neg zero] at done
          cases done
          exact ⟨d₂, found, .inr ⟨more, valid, expanded⟩⟩
    · cases done
      exact ⟨d₁, found, .inl ⟨Nat.eq_zero_of_not_pos more, rfl⟩⟩
  · rename_i other
    exact absurd done (other d₁ c)

theorem makeRoom_room {fuel : Nat} {stack : Int → UInt8} (some : 0 < d.slotsPerCluster) (volume : d.fat.Volume)
    (inUse : ∀ c ∈ chain, d.fat.InUse c) (nonempty : chain ≠ []) (on : d.DirChain chain)
    (done : d.makeRoom fuel (chain.getD 0 0) name stack = .some (.success, d₁, c)) :
    d.Room d₁ c (lfnEntryCount name) chain (d.grownChain chain name) (d.firstFree chain) := by
  obtain ⟨c₀, cs, rfl⟩ := List.exists_cons_of_ne_nil nonempty
  obtain ⟨d₂, found, rest⟩ := makeRoom_steps done
  have slot := findSpace_success some on found
  rw [grownChain]
  generalize c₀ :: cs = chain at *
  cases slot with
  | @inside front back x k at_ small used free =>
      subst at_
      obtain ⟨p, before⟩ := @firstFree_inside d front back x k small used free
      have row : (d.slotsPerCluster * front.length + k) / d.slotsPerCluster = front.length := by
        rw [Nat.mul_add_div some, Nat.div_eq_of_lt small, Nat.add_zero]
      have col : (d.slotsPerCluster * front.length + k) % d.slotsPerCluster = k := by
        rw [Nat.mul_add_mod, Nat.mod_eq_of_lt small]
      have notFull : d.slotsPerCluster * front.length + k ≠ d.slotsPerCluster * (front ++ x :: back).length := by
        intro full
        have := congrArg (· / d.slotsPerCluster) full
        simp only [row, Nat.mul_div_cancel_left _ some, List.length_append, List.length_cons] at this
        omega
      have kept : (front ++ x :: back).take (front.length + 1) = front ++ [x] := by
        rw [List.take_append, List.take_of_length_le (Nat.le_succ _), Nat.add_sub_cancel_left]
        rfl
      rw [p] at before ⊢
      rw [if_neg notFull, row, col, kept]
      rcases rest with ⟨none, rfl⟩ | ⟨more, new, expanded⟩
      · rw [if_pos none]
        exact ⟨on, ⟨front, back, k, rfl, small, rfl, rfl, before.symm, none ▸ Nat.zero_le _⟩, rfl, rfl⟩
      · rw [if_neg (Nat.pos_iff_ne_zero.mp more)]
        obtain ⟨g, rfl, head, grows, -, wide⟩ := expandChain_grows volume more (inUse x (by simp)) expanded
        refine ⟨?_, ⟨front, _, k, List.append_assoc .., small, rfl, rfl, before.symm, wide.ge⟩, rfl, rfl⟩
        rw [List.append_assoc]
        exact on.grow volume inUse grows
  | @behind last new d₂ at_ used expanded nonzero =>
      obtain ⟨p, before⟩ := firstFree_behind used
      have lastUsed : d.fat.InUse last := inUse last (List.mem_of_getLast? at_)
      obtain ⟨g, rfl, head, grows, fewer, -⟩ := expandChain_grows volume (le_refl 1) lastUsed expanded
      obtain ⟨init, rfl⟩ := List.getLast?_eq_some_iff.mp at_
      have one : d.fat.available.take 1 = [new] := by
        cases list : d.fat.available with
        | nil =>
            rw [list] at head
            cases head
        | cons a l =>
            rw [list] at head
            cases head
            rfl
      have on₂ : (d.withFat g).DirChain (init ++ [last] ++ [new]) := by
        have grown := on.grow volume inUse grows
        rwa [one, ← List.singleton_append, ← List.append_assoc] at grown
      rw [p] at before ⊢
      rw [if_pos rfl, Nat.mul_mod_right, Nat.mul_zero, List.take_add, one, ← List.append_assoc]
      rcases rest with ⟨none, rfl⟩ | ⟨more, new₂, expanded₂⟩
      · have zero : d.newClusterCount (lfnEntryCount name) 0 = 0 := none
        rw [zero, List.take_zero, List.append_nil]
        exact ⟨on₂, ⟨init ++ [last], [], 0, rfl, some, rfl, rfl, (List.append_nil _).trans before.symm, zero.le⟩, rfl, rfl⟩
      · have newUsed : g.InUse new := grows.inUse lastUsed (by rw [one]; simp)
        have inUse₂ : ∀ c ∈ init ++ [last] ++ [new], g.InUse c := by
          intro c member
          rcases List.mem_append.mp member with old | isNew
          · exact grows.notFree (inUse c old) lastUsed
          · rwa [List.mem_singleton.mp isNew]
        obtain ⟨g₂, rfl, -, grows₂, -, wide⟩ := expandChain_grows (grows.volume volume) more newUsed expanded₂
        have on₃ := on₂.grow (grows.volume volume) inUse₂ grows₂
        refine ⟨?_, ⟨init ++ [last], _, 0, List.append_assoc .., some, rfl, rfl, (List.append_nil _).trans before.symm, ?_⟩, rfl, rfl⟩
        case refine_2 =>
          rw [← fewer]
          exact wide.ge
        rw [← fewer, List.append_assoc]
        exact on₃

end Disk
end Kerosene.Fat32
