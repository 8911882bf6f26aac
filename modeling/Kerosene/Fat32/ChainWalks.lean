import Kerosene.Fat32.FileRead
import Kerosene.Fat32.DirectoryAdd
import Kerosene.Fat32.Listing
import Kerosene.Lib.Walks

/-!
# The walks along chains, on any FAT

`fat32_get_last_cluster_of_chain`, `free_cluster_chain` and `node_find` follow the links of the FAT until a
value that ends a chain, and count nothing.
-/

namespace Kerosene.Fat32
open Lib
open Ramfs (Name fsNodeTypeMask fsNodeTypeDirectory)
variable {d : Disk} {f g : Fat} {c start : Nat}

/-! ## The last cluster -/

namespace Fat

-- A value that ends no chain.
def Continues (val : Nat) : Prop := val < fatEoc ∧ val ≠ fatBadCluster

instance (val : Nat) : Decidable (Continues val) := inferInstanceAs (Decidable (_ ∧ _))

def nextCluster (f : Fat) (c : Nat) : Option Nat := if Continues (f.getFatEntry c) then some (f.getFatEntry c) else none

theorem nextCluster_some {b : Nat} : f.nextCluster c = some b ↔ f.getFatEntry c = b ∧ Continues b := by
  rw [nextCluster]
  split_ifs with more
  · rw [Option.some.injEq]
    exact ⟨fun same => ⟨same, same ▸ more⟩, fun h => h.1⟩
  · exact ⟨nofun, fun h => absurd (h.1 ▸ h.2) more⟩

theorem nextCluster_none : f.nextCluster c = none ↔ ¬ Continues (f.getFatEntry c) := by
  rw [nextCluster]
  split_ifs with more
  · exact ⟨nofun, fun stop => absurd more stop⟩
  · exact ⟨fun _ => more, fun _ => rfl⟩

theorem nextCluster_congr (same : g.getFatEntry c = f.getFatEntry c) : g.nextCluster c = f.nextCluster c := by
  rw [nextCluster, same, nextCluster]

theorem ends_iff (f : Fat) (c : Nat) : Ends f.nextCluster c ↔ NoCycle f.nextCluster c := by
  refine ends_iff_noCycle ((Set.finite_Iio fatEoc).subset ?_)
  rintro b ⟨a, step⟩
  exact (nextCluster_some.mp step).2.1

end Fat

theorem lastLoop_succ (fuel : Nat) : d.lastLoop (fuel + 1) c =
    if Fat.Continues (d.fat.getFatEntry c) then d.lastLoop fuel (d.fat.getFatEntry c) else some c := rfl

theorem lastLoop_iff : (∃ fuel, (d.lastLoop fuel c).isSome) ↔ Ends d.fat.nextCluster c := by
  constructor
  · rintro ⟨fuel, done⟩
    induction fuel generalizing c with
    | zero => cases done
    | succ fuel ih =>
        rw [lastLoop_succ] at done
        split_ifs at done with more
        · exact .link (Fat.nextCluster_some.mpr ⟨rfl, more⟩) (ih done)
        · exact .last (Fat.nextCluster_none.mpr more)
  · intro ends
    induction ends with
    | last stop =>
        refine ⟨1, ?_⟩
        rw [lastLoop_succ, if_neg (Fat.nextCluster_none.mp stop)]
        rfl
    | link step _ ih =>
        obtain ⟨fuel, done⟩ := ih
        obtain ⟨rfl, more⟩ := Fat.nextCluster_some.mp step
        refine ⟨fuel + 1, ?_⟩
        rwa [lastLoop_succ, if_pos more]

/-! ## Freeing a chain -/

namespace Fat
variable {free : BitVec 32}

theorem freeLoop_step (fuel : Nat) (more : Continues c) (free : BitVec 32) :
    f.freeLoop (fuel + 1) c free = (f.setFatEntry c fatFreeCluster).freeLoop fuel (f.getFatEntry c) (free + 1#32) := by
  rw [freeLoop]
  exact if_pos more

theorem freeLoop_stop (stop : ¬ Continues c) (free : BitVec 32) : (f.freeLoop 1 c free).isSome := by
  rw [freeLoop, if_neg (show ¬ (c < fatEoc ∧ c ≠ fatBadCluster) from stop)]
  rfl

theorem continues_zero : Continues fatFreeCluster := by decide

theorem freeLoop_ends (ends : Ends f.nextCluster c) (more : Continues c)
    (same : ∀ b, Visits f.nextCluster c b → g.getFatEntry b = f.getFatEntry b) (free : BitVec 32) :
    ∃ fuel, (g.freeLoop fuel c free).isSome := by
  induction ends generalizing g free with
  | last stop =>
      refine ⟨2, ?_⟩
      rw [freeLoop_step 1 more]
      apply freeLoop_stop
      rw [same _ .refl]
      exact nextCluster_none.mp stop
  | @link a b step rest ih =>
      have noCycle := (Ends.link step rest).noCycle
      obtain ⟨entry, next⟩ := nextCluster_some.mp step
      -- the rest of the chain does not come back to `a`
      have later : ∀ x, Visits f.nextCluster b x → (g.setFatEntry a fatFreeCluster).getFatEntry x = f.getFatEntry x := by
        intro x visits
        have other : x ≠ a := by
          rintro rfl
          exact noCycle x .refl (Relation.TransGen.head' step visits)
        rw [getFatEntry_set_ne other]
        exact same x (visits.head step)
      obtain ⟨fuel, done⟩ := ih next later (free + 1#32)
      refine ⟨fuel + 1, ?_⟩
      rw [freeLoop_step fuel more, same a .refl, entry]
      exact done

/-- The entries that are not zero: each round takes one away, or goes to cluster 0. -/
noncomputable def used (f : Fat) : Finset Nat := (Finset.range fatEoc).filter fun c => f.getFatEntry c ≠ fatFreeCluster

theorem used_set (more : Continues c) (used : f.getFatEntry c ≠ fatFreeCluster) :
    (f.setFatEntry c fatFreeCluster).used.card < f.used.card := by
  apply Finset.card_lt_card
  rw [Finset.ssubset_iff_of_subset]
  · refine ⟨c, ?_, ?_⟩
    · exact Finset.mem_filter.mpr ⟨Finset.mem_range.mpr more.1, used⟩
    · intro member
      exact (Finset.mem_filter.mp member).2 (getFatEntry_set_self f c (by decide))
  · intro x member
    obtain ⟨inside, nonzero⟩ := Finset.mem_filter.mp member
    refine Finset.mem_filter.mpr ⟨inside, ?_⟩
    by_cases other : x = c
    · exact other ▸ used
    · rwa [getFatEntry_set_ne other] at nonzero

theorem freeLoop_zero_ends (zeroEnds : Ends f.nextCluster 0) (more : Continues c) (free : BitVec 32) :
    ∃ fuel, (f.freeLoop fuel c free).isSome := by
  induction count : f.used.card using Nat.strong_induction_on generalizing f c free with
  | _ n ih =>
      by_cases ends : Ends f.nextCluster c
      · exact freeLoop_ends ends more (fun _ _ => rfl) free
      · -- the walk from cluster 0 does not meet `c`
        have same : ∀ b, Visits f.nextCluster 0 b →
            (f.setFatEntry c fatFreeCluster).getFatEntry b = f.getFatEntry b := by
          intro b visits
          apply getFatEntry_set_ne
          rintro rfl
          exact ends (zeroEnds.visited visits)
        by_cases zero : f.getFatEntry c = fatFreeCluster
        · obtain ⟨fuel, done⟩ := freeLoop_ends zeroEnds continues_zero same (free + 1#32)
          refine ⟨fuel + 1, ?_⟩
          rw [freeLoop_step fuel more, zero]
          exact done
        · have next : Continues (f.getFatEntry c) := by
            by_contra stop
            exact ends (.last (nextCluster_none.mpr stop))
          have zeroEnds' := zeroEnds.congr fun b visits => nextCluster_congr (same b visits)
          obtain ⟨fuel, done⟩ := ih _ (count ▸ used_set more zero) zeroEnds' next (free + 1#32) rfl
          refine ⟨fuel + 1, ?_⟩
          rw [freeLoop_step fuel more]
          exact done

/-- Entries of `f`, some of them cleared: the loop follows the links of `f`, or goes to cluster 0. -/
theorem freeLoop_endless (same : ∀ b, g.getFatEntry b = f.getFatEntry b ∨ g.getFatEntry b = fatFreeCluster)
    (more : Continues c) (endless : ¬ Ends f.nextCluster c) (zeroEndless : ¬ Ends f.nextCluster 0) (fuel : Nat) :
    g.freeLoop fuel c free = none := by
  induction fuel generalizing g c free with
  | zero => rfl
  | succ fuel ih =>
      have same' : ∀ b, (g.setFatEntry c fatFreeCluster).getFatEntry b = f.getFatEntry b ∨
          (g.setFatEntry c fatFreeCluster).getFatEntry b = fatFreeCluster := by
        intro b
        by_cases other : b = c
        · exact .inr (other ▸ getFatEntry_set_self g b (by decide))
        · rw [getFatEntry_set_ne other]
          exact same b
      rw [freeLoop_step fuel more]
      rcases same c with kept | cleared
      · rw [kept]
        by_cases next : Continues (f.getFatEntry c)
        · exact ih same' next fun ends => endless (.link (nextCluster_some.mpr ⟨rfl, next⟩) ends)
        · exact absurd (.last (nextCluster_none.mpr next)) endless
      · rw [cleared]
        exact ih same' continues_zero zeroEndless

theorem freeLoop_iff (free : BitVec 32) : (∃ fuel, (f.freeLoop fuel c free).isSome) ↔
    ¬ Continues c ∨ Ends f.nextCluster c ∨ Ends f.nextCluster 0 := by
  constructor
  · rintro ⟨fuel, done⟩
    by_contra endless
    rw [not_or, not_or, not_not] at endless
    obtain ⟨more, here, zero⟩ := endless
    rw [freeLoop_endless (fun _ => .inl rfl) more here zero fuel] at done
    cases done
  · intro ends
    by_cases more : Continues c
    · rcases ends with stop | here | zero
      · exact absurd more stop
      · exact freeLoop_ends here more (fun _ _ => rfl) free
      · exact freeLoop_zero_ends zero more free
    · exact ⟨1, freeLoop_stop more free⟩

end Fat

/-! ## `node_find` -/

inductive FindErr
  | success
  | notDir
  | notFound
  | badCluster
deriving DecidableEq

namespace Disk

-- The call number `calls` of `fat32_iterate_directory` finds `stack calls` on its stack.
def nodeFindLoop (d : Disk) (rootdirCluster : UInt32) (fuel : Nat) (nodename : Name) (stack : Nat → Int → UInt8) :
    (rounds calls : Nat) → DirectoryIterator → FsNode → Option (FindErr × FsNode)
  | 0, _, _, _ => none
  | rounds + 1, calls, diriter, ret =>
      match d.fat32IterateDirectory rootdirCluster fuel diriter ret (stack calls) with
      | some (.success, some (diriter, ret)) =>
          -- `strcmp_case_insensitive` does not depend on the order of its arguments.
          if sameIgnoringCase (fun i => ret.name i.toNat) 0 nodename then some (.success, ret)
          else nodeFindLoop d rootdirCluster fuel nodename stack rounds (calls + 1) diriter ret
      | some (.badCluster, none) => some (.badCluster, ret)
      | some _ => some (.notFound, ret)
      | none => none

def nodeFind (d : Disk) (rootdirCluster : UInt32) (fuel : Nat) (parent : FsNode) (nodename : Name)
    (stack : Nat → Int → UInt8) (ret : FsNode) : Option (FindErr × FsNode) :=
  if parent.flags &&& fsNodeTypeMask ≠ fsNodeTypeDirectory then some (.notDir, ret)
  else d.nodeFindLoop rootdirCluster fuel nodename stack fuel 0 (fat32SetupDirectoryIterator parent.startCluster.toNat)
    { ret with flags := 0 }

/-! ## A search that ends -/

def HasFree (d : Disk) (c k : Nat) : Prop := ∃ slot ∈ (d.clusterSlots c).drop k, slot.getD 0 0 = 0x00

/-- From slot `k` of the cluster `c` on, the next `n` clusters hold a slot that was never used, or end the chain. -/
def Closes (d : Disk) : Nat → Nat → Nat → Prop
  | 0, _, _ => False
  | n + 1, c, k => d.HasFree c k ∨ d.fat.nextCluster c = none ∨ ∃ b, d.fat.nextCluster c = some b ∧ Closes d n b 0

variable {rootdirCluster : UInt32} {ret : FsNode} {s : Decoder} {n k : Nat}

theorem scan_entry {slots : List (List UInt8)} {s' : Decoder} {p : Nat} {dir : FatDirectoryEntry}
    (found : scanSlots slots s = .entry p s' dir) (free : ∃ slot ∈ slots, slot.getD 0 0 = 0x00) :
    ∃ slot ∈ slots.drop (p + 1), slot.getD 0 0 = 0x00 := by
  induction slots generalizing s p with
  | nil => cases found
  | cons slot slots ih =>
      have pass : ∀ s₁, slot.getD 0 0 ≠ 0x00 → (scanSlots slots s₁).place (· + 1) = .entry p s' dir →
          ∃ slot' ∈ (slot :: slots).drop (p + 1), slot'.getD 0 0 = 0x00 := by
        intro s₁ used placed
        obtain ⟨q, rest⟩ := Scan.of_place_entry placed
        rw [rest] at placed
        cases placed
        obtain ⟨slot', member, zero⟩ := free
        rcases List.mem_cons.mp member with rfl | later
        · exact absurd zero used
        · exact ih rest ⟨slot', later, zero⟩
      rw [scanSlots_cons] at found
      split_ifs at found with zero
      · exact pass _ zero found
      · exact pass _ zero found
      all_goals
        cases found
        obtain ⟨slot', member, free⟩ := free
        rcases List.mem_cons.mp member with rfl | later
        · exact absurd free zero
        · exact ⟨slot', later, free⟩

theorem scan_ended {slots : List (List UInt8)} {s' : Decoder} (passed : scanSlots slots s = .ended s') :
    ∀ slot ∈ slots, slot.getD 0 0 ≠ 0x00 := by
  induction slots generalizing s with
  | nil => exact List.forall_mem_nil _
  | cons slot slots ih =>
      have pass : ∀ s₁, (scanSlots slots s₁).place (· + 1) = .ended s' →
          ∀ slot ∈ slots, slot.getD 0 0 ≠ 0x00 := by
        intro s₁ placed
        cases rest : scanSlots slots s₁ with
        | ended s₂ =>
            rw [rest] at placed
            cases placed
            exact ih rest
        | free =>
            rw [rest] at placed
            cases placed
        | entry p s₂ dir =>
            rw [rest] at placed
            cases placed
      rw [scanSlots_cons] at passed
      split_ifs at passed with zero
      · exact List.forall_mem_cons.mpr ⟨zero, pass _ passed⟩
      · exact List.forall_mem_cons.mpr ⟨zero, pass _ passed⟩

theorem scan_free {slots : List (List UInt8)} (free : scanSlots slots s = .free) :
    ∃ slot ∈ slots, slot.getD 0 0 = 0x00 := by
  by_contra none
  push Not at none
  induction slots generalizing s with
  | nil => cases free
  | cons slot slots ih =>
      obtain ⟨first, later⟩ := List.forall_mem_cons.mp none
      have pass : ∀ s₁, (scanSlots slots s₁).place (· + 1) ≠ .free := by
        intro s₁ placed
        cases rest : scanSlots slots s₁ with
        | ended s₂ =>
            rw [rest] at placed
            cases placed
        | free => exact ih rest later
        | entry p s₂ dir =>
            rw [rest] at placed
            cases placed
      rw [scanSlots_cons, if_neg first] at free
      split_ifs at free
      · exact pass _ free
      · exact pass _ free

/-- A call ends in a position from which fewer slots are left, or it is the last one. -/
def Nearer (d : Disk) (n c k : Nat) : Option (DirErr × Option (DirectoryIterator × FsNode)) → Prop
  | some (.success, some (diriter, _)) => ∃ m i : Nat, diriter.currentIndex = 32 * (i : Int) ∧ i < d.slotsPerCluster ∧
      d.Closes m diriter.currentCluster (i + 1) ∧ (m < n ∨ m = n ∧ diriter.currentCluster = c ∧ k ≤ i)
  | some (err, none) => err ≠ .success
  | _ => False

theorem Nearer.mono {c' k' m : Nat} {r : Option (DirErr × Option (DirectoryIterator × FsNode))}
    (nearer : d.Nearer m c' k' r) (less : m < n) : d.Nearer n c k r := by
  match r with
  | some (.success, some (diriter, node)) =>
      obtain ⟨m', i, index, inside, closes, measure⟩ := nearer
      exact ⟨m', i, index, inside, closes, .inl (by omega)⟩
  | some (.success, none) => exact nearer
  | some (.eof, none) => exact nofun
  | some (.badCluster, none) => exact nofun
  | some (.notEnoughSpace, none) => exact nofun
  | some (.entryExisted, none) => exact nofun

theorem iterateLoop_nearer {fuel : Nat} (closes : d.Closes n c k) (inside : k ≤ d.slotsPerCluster) (enough : n ≤ fuel) :
    d.Nearer n c k (d.iterateLoop rootdirCluster ret fuel c (32 * k) s) := by
  induction n generalizing c k s fuel with
  | zero => cases closes
  | succ n ih =>
      obtain ⟨fuel, rfl⟩ := Nat.exists_eq_add_one.mpr (Nat.zero_lt_of_lt enough)
      rw [iterateLoop, scan_drop]
      cases scan : scanSlots ((d.clusterSlots c).drop k) s with
      | free => rintro ⟨⟩
      | entry p s' dir =>
          have before := scanSlots_entry scan
          rw [List.length_drop, length_clusterSlots] at before
          refine ⟨n + 1, k + p, ?_, by omega, ?_, .inr ⟨rfl, rfl, by omega⟩⟩
          · simp only
            push_cast
            omega
          · rcases closes with free | rest
            · have later := scan_entry scan free
              rw [List.drop_drop] at later
              exact .inl later
            · exact .inr rest
      | ended s' =>
          have used := scan_ended scan
          rcases closes with ⟨slot, member, free⟩ | stop | ⟨b, step, rest⟩
          · exact absurd free (used slot member)
          · have ends := Fat.nextCluster_none.mp stop
            simp only [Scan.place]
            split_ifs with eoc bad
            · rintro ⟨⟩
            · rintro ⟨⟩
            · exact absurd ⟨not_le.mp eoc, bad⟩ ends
          · obtain ⟨rfl, more, notBad⟩ := Fat.nextCluster_some.mp step
            simp only [Scan.place]
            rw [if_neg (not_le.mpr more), if_neg notBad]
            exact (ih (k := 0) rest (Nat.zero_le _) (Nat.le_of_succ_le_succ enough)).mono (Nat.lt_succ_self n)

/-- A call is a run of the loop; behind the last slot of a cluster the loop starts with a pass that reads nothing. -/
theorem iterateDirectory_loop {diriter : DirectoryIterator} (sized : d.Sized) (index : diriter.currentIndex + 32 = 32 * (k : Int))
    (inside : k ≤ d.slotsPerCluster) (rootdirCluster : UInt32) (fuel : Nat) (ret : FsNode) (entryName : Int → UInt8) :
    ∃ more, d.fat32IterateDirectory rootdirCluster fuel diriter ret entryName =
      d.iterateLoop rootdirCluster ret (fuel + more) diriter.currentCluster (32 * k) (.start entryName) := by
  have slots := sized.slots
  have size := d.clusterSize_eq
  have iter : toUnsigned (diriter.currentIndex + 32) = 32 * k := by
    rw [index, toUnsigned]
    omega
  simp only [fat32IterateDirectory, iter]
  by_cases past : 32 * k ≥ d.clusterSize
  · obtain rfl : k = d.slotsPerCluster := by omega
    refine ⟨1, ?_⟩
    rw [if_pos past, iterateLoop, scan_drop, List.drop_of_length_le (by rw [length_clusterSlots])]
    rfl
  · exact ⟨0, if_neg past⟩

theorem nodeFindLoop_ends {fuel rounds calls : Nat} {nodename : Name} {stack : Nat → Int → UInt8}
    {diriter : DirectoryIterator} (sized : d.Sized) (index : diriter.currentIndex + 32 = 32 * (k : Int))
    (closes : d.Closes n diriter.currentCluster k) (inside : k ≤ d.slotsPerCluster) (enough : n ≤ fuel)
    (left : n * (d.slotsPerCluster + 1) + (d.slotsPerCluster - k) < rounds) :
    (d.nodeFindLoop rootdirCluster fuel nodename stack rounds calls diriter ret).isSome := by
  induction rounds generalizing n k calls diriter ret with
  | zero => cases left
  | succ rounds ih =>
      obtain ⟨more, call⟩ := iterateDirectory_loop sized index inside rootdirCluster fuel ret (stack calls)
      have nearer : d.Nearer n diriter.currentCluster k (d.fat32IterateDirectory rootdirCluster fuel diriter ret (stack calls)) := by
        rw [call]
        exact iterateLoop_nearer closes inside (Nat.le_add_right_of_le enough)
      rw [nodeFindLoop]
      match d.fat32IterateDirectory rootdirCluster fuel diriter ret (stack calls), nearer with
      | some (.success, some (diriter', ret')), ⟨m, i, index', inside', closes', measure⟩ =>
          have fewer : m * (d.slotsPerCluster + 1) + (d.slotsPerCluster - (i + 1)) < rounds := by
            rcases measure with less | ⟨rfl, -, later⟩
            · have := Nat.mul_le_mul_right (d.slotsPerCluster + 1) (Nat.succ_le_of_lt less)
              rw [Nat.succ_mul] at this
              omega
            · omega
          have atMost : m ≤ fuel := by
            rcases measure with less | ⟨rfl, -, -⟩ <;> omega
          simp only
          split_ifs
          · rfl
          · refine ih ?_ closes' (Nat.succ_le_of_lt inside') atMost fewer
            rw [index']
            push_cast
            omega
      | some (.eof, none), _ => rfl
      | some (.badCluster, none), _ => rfl
      | some (.notEnoughSpace, none), _ => rfl
      | some (.entryExisted, none), _ => rfl

/-! ## A search that does not end -/

def Endless (d : Disk) (c k : Nat) : Prop := ∀ n, ¬ d.Closes n c k

theorem Endless.used (endless : d.Endless c k) : ¬ d.HasFree c k := fun free => endless 1 (.inl free)

theorem Endless.next (endless : d.Endless c k) : ∃ b, d.fat.nextCluster c = some b ∧ d.Endless b 0 := by
  cases step : d.fat.nextCluster c with
  | none => exact absurd (.inr (.inl step)) (endless 1)
  | some b => exact ⟨b, rfl, fun n closes => endless (n + 1) (.inr (.inr ⟨b, step, closes⟩))⟩

/-- The call does not return, or it returns an entry and the rest is endless. -/
def Goes (d : Disk) : Option (DirErr × Option (DirectoryIterator × FsNode)) → Prop
  | some (.success, some (diriter, _)) =>
      ∃ i : Nat, diriter.currentIndex = 32 * (i : Int) ∧ i < d.slotsPerCluster ∧
        d.Endless diriter.currentCluster (i + 1)
  | some _ => False
  | none => True

theorem Endless.later {j : Nat} (endless : d.Endless c k) (later : k ≤ j) : d.Endless c j := by
  intro n closes
  cases n with
  | zero => exact closes
  | succ n =>
      refine endless (n + 1) ?_
      rcases closes with ⟨slot, member, free⟩ | rest
      · obtain ⟨more, rfl⟩ := Nat.exists_eq_add_of_le later
        rw [← List.drop_drop] at member
        exact .inl ⟨slot, List.mem_of_mem_drop member, free⟩
      · exact .inr rest

theorem iterateLoop_goes {fuel : Nat} (endless : d.Endless c k) (inside : k ≤ d.slotsPerCluster) :
    d.Goes (d.iterateLoop rootdirCluster ret fuel c (32 * k) s) := by
  induction fuel generalizing c k s with
  | zero => trivial
  | succ fuel ih =>
      rw [iterateLoop, scan_drop]
      cases scan : scanSlots ((d.clusterSlots c).drop k) s with
      | free => exact absurd (scan_free scan) endless.used
      | entry p s' dir =>
          have before := scanSlots_entry scan
          rw [List.length_drop, length_clusterSlots] at before
          refine ⟨k + p, ?_, by omega, endless.later (by omega)⟩
          simp only
          push_cast
          omega
      | ended s' =>
          obtain ⟨b, step, rest⟩ := endless.next
          obtain ⟨rfl, more, notBad⟩ := Fat.nextCluster_some.mp step
          simp only [Scan.place]
          rw [if_neg (not_le.mpr more), if_neg notBad]
          exact ih (k := 0) rest (Nat.zero_le _)

theorem nodeFindLoop_endless {fuel rounds calls : Nat} {nodename : Name} {stack : Nat → Int → UInt8}
    {diriter : DirectoryIterator} {err : FindErr} {node : FsNode} (sized : d.Sized)
    (index : diriter.currentIndex + 32 = 32 * (k : Int)) (endless : d.Endless diriter.currentCluster k)
    (inside : k ≤ d.slotsPerCluster)
    (done : d.nodeFindLoop rootdirCluster fuel nodename stack rounds calls diriter ret = some (err, node)) :
    err = .success := by
  induction rounds generalizing k calls diriter ret with
  | zero => cases done
  | succ rounds ih =>
      obtain ⟨more, call⟩ := iterateDirectory_loop sized index inside rootdirCluster fuel ret (stack calls)
      have goes : d.Goes (d.fat32IterateDirectory rootdirCluster fuel diriter ret (stack calls)) := by
        rw [call]
        exact iterateLoop_goes endless inside
      rw [nodeFindLoop] at done
      match d.fat32IterateDirectory rootdirCluster fuel diriter ret (stack calls), goes, done with
      | some (.success, some (diriter', ret')), ⟨i, index', inside', endless'⟩, done =>
          simp only at done
          split_ifs at done with same
          · cases done
            rfl
          · refine ih ?_ endless' (Nat.succ_le_of_lt inside') done
            rw [index']
            push_cast
            omega

/-! ## A search that comes to the name -/

/-- From slot `k` of the cluster `c` on, the next directory entry is `dir`, slot `i` of the cluster `b`; `t` holds its name. -/
inductive NextEntry (d : Disk) : (c k : Nat) → Decoder → (b i : Nat) → Decoder → FatDirectoryEntry → Prop
  | here {c k p : Nat} {s t : Decoder} {dir : FatDirectoryEntry}
      (found : scanSlots ((d.clusterSlots c).drop k) s = .entry p t dir) : NextEntry d c k s c (k + p) t dir
  | link {c k e b i : Nat} {s s' t : Decoder} {dir : FatDirectoryEntry}
      (passed : scanSlots ((d.clusterSlots c).drop k) s = .ended s') (step : d.fat.nextCluster c = some e)
      (later : NextEntry d e 0 s' b i t dir) : NextEntry d c k s b i t dir

/-- An entry from slot `k` of the cluster `c` on has the name. The calls are counted, and `old` is what they find in the
name field of the node. -/
inductive Meets (d : Disk) (nodename : Name) (stack : Nat → Int → UInt8) : (calls c k : Nat) → (old : Bytes) → Prop
  | here {calls c k b i : Nat} {old : Bytes} {t : Decoder} {dir : FatDirectoryEntry}
      (next : d.NextEntry c k (.start (stack calls)) b i t dir)
      (same : sameIgnoringCase (fun j => t.copyName old j.toNat) 0 nodename) : Meets d nodename stack calls c k old
  | later {calls c k b i : Nat} {old : Bytes} {t : Decoder} {dir : FatDirectoryEntry}
      (next : d.NextEntry c k (.start (stack calls)) b i t dir)
      (rest : Meets d nodename stack (calls + 1) b (i + 1) (t.copyName old)) : Meets d nodename stack calls c k old

variable {b i : Nat} {t : Decoder} {dir : FatDirectoryEntry}

theorem NextEntry.inside (next : d.NextEntry c k s b i t dir) : i < d.slotsPerCluster := by
  induction next with
  | here found =>
      have before := scanSlots_entry found
      rw [List.length_drop, length_clusterSlots] at before
      omega
  | link _ _ _ ih => exact ih

theorem NextEntry.loop (next : d.NextEntry c k s b i t dir) : ∃ n, ∀ fuel, n ≤ fuel → ∀ rootdirCluster ret,
    d.iterateLoop rootdirCluster ret fuel c (32 * k) s =
      some (.success, some (⟨(32 * i : Nat), b⟩, fillNode rootdirCluster ret b (32 * i) t dir)) := by
  induction next with
  | here found =>
      refine ⟨1, fun fuel enough rootdirCluster ret => ?_⟩
      obtain ⟨fuel, rfl⟩ := Nat.exists_eq_add_of_le' enough
      rw [iterateLoop, scan_drop, found, Nat.mul_add]
      rfl
  | link passed step _ ih =>
      obtain ⟨n, run⟩ := ih
      refine ⟨n + 1, fun fuel enough rootdirCluster ret => ?_⟩
      obtain ⟨fuel, rfl⟩ := Nat.exists_eq_add_one.mpr (Nat.zero_lt_of_lt enough)
      obtain ⟨rfl, more, notBad⟩ := Fat.nextCluster_some.mp step
      rw [iterateLoop, scan_drop, passed]
      simp only [Scan.place]
      rw [if_neg (not_le.mpr more), if_neg notBad]
      exact run fuel (Nat.le_of_succ_le_succ enough) rootdirCluster ret

theorem nextEntry_of_loop {fuel : Nat} {diriter : DirectoryIterator} {node : FsNode}
    (done : d.iterateLoop rootdirCluster ret fuel c (32 * k) s = some (.success, some (diriter, node))) :
    ∃ b i t dir, d.NextEntry c k s b i t dir ∧ diriter = ⟨(32 * i : Nat), b⟩ ∧
      node = fillNode rootdirCluster ret b (32 * i) t dir := by
  induction fuel generalizing c k s with
  | zero => cases done
  | succ fuel ih =>
      rw [iterateLoop, scan_drop] at done
      cases scan : scanSlots ((d.clusterSlots c).drop k) s with
      | free =>
          rw [scan] at done
          cases done
      | entry p t dir =>
          rw [scan] at done
          cases done
          exact ⟨c, k + p, t, dir, .here scan, by rw [Nat.mul_add], by rw [Nat.mul_add]⟩
      | ended s' =>
          rw [scan] at done
          simp only [Scan.place] at done
          split_ifs at done with eoc bad
          · cases done
          · cases done
          · obtain ⟨b, i, t, dir, next, same⟩ := ih (k := 0) done
            exact ⟨b, i, t, dir, .link scan (Fat.nextCluster_some.mpr ⟨rfl, not_le.mp eoc, bad⟩) next, same⟩

theorem NextEntry.call {diriter : DirectoryIterator} {entryName : Int → UInt8} (sized : d.Sized)
    (next : d.NextEntry diriter.currentCluster k (.start entryName) b i t dir)
    (index : diriter.currentIndex + 32 = 32 * (k : Int)) (inside : k ≤ d.slotsPerCluster) :
    ∃ n, ∀ fuel, n ≤ fuel → ∀ rootdirCluster ret, d.fat32IterateDirectory rootdirCluster fuel diriter ret entryName =
      some (.success, some (⟨(32 * i : Nat), b⟩, fillNode rootdirCluster ret b (32 * i) t dir)) := by
  obtain ⟨n, run⟩ := next.loop
  refine ⟨n, fun fuel enough rootdirCluster ret => ?_⟩
  obtain ⟨more, call⟩ := iterateDirectory_loop sized index inside rootdirCluster fuel ret entryName
  rw [call]
  exact run (fuel + more) (Nat.le_add_right_of_le enough) rootdirCluster ret

theorem Meets.search {calls : Nat} {nodename : Name} {stack : Nat → Int → UInt8} {old : Bytes} {diriter : DirectoryIterator}
    (sized : d.Sized) (meets : d.Meets nodename stack calls c k old) (inside : k ≤ d.slotsPerCluster)
    (index : diriter.currentIndex + 32 = 32 * (k : Int)) (cluster : diriter.currentCluster = c) (name : ret.name = old) :
    ∃ n, ∀ fuel rounds, n ≤ fuel → n ≤ rounds →
      (d.nodeFindLoop rootdirCluster fuel nodename stack rounds calls diriter ret).isSome := by
  induction meets generalizing diriter ret with
  | here next same =>
      subst cluster name
      obtain ⟨n, call⟩ := next.call sized index inside
      refine ⟨n + 1, fun fuel rounds enough enough' => ?_⟩
      obtain ⟨rounds, rfl⟩ := Nat.exists_eq_add_one.mpr (Nat.zero_lt_of_lt enough')
      rw [nodeFindLoop, call fuel (Nat.le_of_succ_le enough) rootdirCluster ret]
      simp only [fillNode, same, if_true]
      rfl
  | @later calls c k b i old t dir next rest ih =>
      subst cluster name
      obtain ⟨n, call⟩ := next.call sized index inside
      obtain ⟨m, run⟩ := @ih (fillNode rootdirCluster ret b (32 * i) t dir) ⟨(32 * i : Nat), b⟩ (Nat.succ_le_of_lt next.inside)
        (by push_cast; omega) rfl rfl
      refine ⟨n + m + 1, fun fuel rounds enough enough' => ?_⟩
      obtain ⟨rounds, rfl⟩ := Nat.exists_eq_add_one.mpr (Nat.zero_lt_of_lt enough')
      rw [nodeFindLoop, call fuel (by omega) rootdirCluster ret]
      simp only
      split_ifs
      · rfl
      · exact run fuel rounds (by omega) (by omega)

theorem meets_of_search {fuel rounds calls : Nat} {nodename : Name} {stack : Nat → Int → UInt8}
    {diriter : DirectoryIterator} {node : FsNode} (sized : d.Sized) (index : diriter.currentIndex + 32 = 32 * (k : Int))
    (inside : k ≤ d.slotsPerCluster)
    (done : d.nodeFindLoop rootdirCluster fuel nodename stack rounds calls diriter ret = some (.success, node)) :
    d.Meets nodename stack calls diriter.currentCluster k ret.name := by
  induction rounds generalizing k calls diriter ret with
  | zero => cases done
  | succ rounds ih =>
      obtain ⟨more, call⟩ := iterateDirectory_loop sized index inside rootdirCluster fuel ret (stack calls)
      rw [nodeFindLoop] at done
      match result : d.fat32IterateDirectory rootdirCluster fuel diriter ret (stack calls), done with
      | some (.success, some (diriter', ret')), done =>
          obtain ⟨b, i, t, dir, next, rfl, rfl⟩ := nextEntry_of_loop (call.symm.trans result)
          simp only at done
          split_ifs at done with same
          · exact .here next same
          · exact .later next (ih (by push_cast; omega) (Nat.succ_le_of_lt next.inside) done)

theorem closes_iff : (∃ n, d.Closes n c 0) ↔
    Ends d.fat.nextCluster c ∨ ∃ b, Visits d.fat.nextCluster c b ∧ d.HasFree b 0 := by
  constructor
  · rintro ⟨n, closes⟩
    induction n generalizing c with
    | zero => cases closes
    | succ n ih =>
        rcases closes with free | stop | ⟨b, step, rest⟩
        · exact .inr ⟨c, .refl, free⟩
        · exact .inl (.last stop)
        · rcases ih rest with ends | ⟨a, visits, free⟩
          · exact .inl (.link step ends)
          · exact .inr ⟨a, visits.head step, free⟩
  · rintro (ends | ⟨b, visits, free⟩)
    · induction ends with
      | last stop => exact ⟨1, .inr (.inl stop)⟩
      | link step _ ih =>
          obtain ⟨n, rest⟩ := ih
          exact ⟨n + 1, .inr (.inr ⟨_, step, rest⟩)⟩
    · induction visits using Relation.ReflTransGen.head_induction_on with
      | refl => exact ⟨1, .inl free⟩
      | head step _ ih =>
          obtain ⟨n, rest⟩ := ih
          exact ⟨n + 1, .inr (.inr ⟨_, step, rest⟩)⟩

theorem nodeFind_iff {parent : FsNode} (sized : d.Sized) (directory : parent.flags &&& fsNodeTypeMask = fsNodeTypeDirectory)
    (rootdirCluster : UInt32) (nodename : Name) (stack : Nat → Int → UInt8) (ret : FsNode) :
    (∃ fuel, (d.nodeFind rootdirCluster fuel parent nodename stack ret).isSome) ↔
      (Ends d.fat.nextCluster parent.startCluster.toNat ∨
          ∃ b, Visits d.fat.nextCluster parent.startCluster.toNat b ∧ d.HasFree b 0) ∨
        d.Meets nodename stack 0 parent.startCluster.toNat 0 ret.name := by
  have start : (fat32SetupDirectoryIterator parent.startCluster.toNat).currentIndex + 32 = 32 * ((0 : Nat) : Int) := rfl
  constructor
  · rintro ⟨fuel, done⟩
    rw [← closes_iff]
    by_cases closes : ∃ n, d.Closes n parent.startCluster.toNat 0
    · exact .inl closes
    · obtain ⟨⟨err, node⟩, result⟩ := Option.isSome_iff_exists.mp done
      rw [nodeFind, if_neg (not_not.mpr directory)] at result
      cases nodeFindLoop_endless sized start (not_exists.mp closes) (Nat.zero_le _) result
      have meets := meets_of_search sized start (Nat.zero_le _) result
      exact .inr meets
  · rintro (closes | meets)
    · obtain ⟨n, closes⟩ := closes_iff.mpr closes
      refine ⟨n + (n * (d.slotsPerCluster + 1) + d.slotsPerCluster + 1), ?_⟩
      rw [nodeFind, if_neg (not_not.mpr directory)]
      exact nodeFindLoop_ends sized start closes (Nat.zero_le _) (by omega) (by omega)
    · obtain ⟨n, run⟩ := @Meets.search d _ rootdirCluster { ret with flags := 0 } 0 0 nodename stack ret.name
        (fat32SetupDirectoryIterator parent.startCluster.toNat) sized meets (Nat.zero_le _) start rfl rfl
      refine ⟨n, ?_⟩
      rw [nodeFind, if_neg (not_not.mpr directory)]
      exact run n n (Nat.le_refl n) (Nat.le_refl n)

/-! ## The three walks -/

/-- The walks end where the links contain no cycle. A cycle is harmless where the loop that frees its clusters comes to
cluster 0 and on to an end, and where a search meets an entry of the name or a slot that was never used. -/
theorem chain_walks_end_iff {parent : FsNode} (sized : d.Sized)
    (directory : parent.flags &&& fsNodeTypeMask = fsNodeTypeDirectory) (start : Nat) (rootdirCluster : UInt32)
    (nodename : Name) (stack : Nat → Int → UInt8) (ret : FsNode) :
    ((∃ fuel, (d.lastLoop fuel start).isSome) ↔ NoCycle d.fat.nextCluster start) ∧
      ((∃ fuel, (d.fat.freeLoop fuel start d.fat.freeClusterCount).isSome) ↔
        ¬ Fat.Continues start ∨ NoCycle d.fat.nextCluster start ∨ NoCycle d.fat.nextCluster 0) ∧
      ((∃ fuel, (d.nodeFind rootdirCluster fuel parent nodename stack ret).isSome) ↔
        (NoCycle d.fat.nextCluster parent.startCluster.toNat ∨
            ∃ c, Visits d.fat.nextCluster parent.startCluster.toNat c ∧ d.HasFree c 0) ∨
          d.Meets nodename stack 0 parent.startCluster.toNat 0 ret.name) := by
  simp only [← d.fat.ends_iff]
  exact ⟨lastLoop_iff, Fat.freeLoop_iff _, nodeFind_iff sized directory rootdirCluster nodename stack ret⟩

-- The entry of cluster 3 is a link to itself.
def selfLinked : Disk where
  fat := ⟨fun c => if c = 3 then 3#32 else 0, 8, 2, 0⟩
  sectorsPerCluster := 1
  data := fun _ _ => 0

def rootNode : FsNode := ⟨fun _ => 0, fsNodeTypeDirectory, 0, 3, 0, 0, 0, 0, 0, 0⟩

theorem selfLinked_find_ends :
    ∃ fuel, (selfLinked.nodeFind 2 fuel rootNode [0x61] (fun _ _ => 0) rootNode).isSome := by
  have ends := @chain_walks_end_iff selfLinked rootNode ⟨by decide, by decide⟩ rfl 3 2 [0x61] (fun _ _ => 0) rootNode
  exact ends.2.2.mpr (.inl (.inr ⟨3, .refl, List.replicate 32 0, by decide, rfl⟩))

theorem self_link_endless : ¬ (∃ fuel, (selfLinked.lastLoop fuel 3).isSome) ∧
    ¬ ∃ fuel, (selfLinked.fat.freeLoop fuel 3 0).isSome := by
  have three : selfLinked.fat.nextCluster 3 = some 3 := by decide
  have zero : selfLinked.fat.nextCluster 0 = some 0 := by decide
  have cycle : ∀ {c}, selfLinked.fat.nextCluster c = some c → ¬ Ends selfLinked.fat.nextCluster c :=
    fun link ends => ends.noCycle _ .refl (.single link)
  rw [lastLoop_iff, Fat.freeLoop_iff]
  refine ⟨cycle three, ?_⟩
  rintro (stop | here | atZero)
  · exact stop (by decide)
  · exact cycle three here
  · exact cycle zero atZero

end Disk
end Kerosene.Fat32
