import Kerosene.Fat32.DirectoryEntry
import Kerosene.Lib.Words

/-!
# `fat32_iterate_directory`

The bytes of a directory are cut into slots of 32 bytes; reading it is a scan of the slots of its
chain.
-/

namespace Kerosene.Fat32
open Lib
open Ramfs (Name filenameLimit)
open Ramfs.Heap (dotdot)

inductive DirErr
  | success
  | eof
  | badCluster
  | notEnoughSpace
  | entryExisted
deriving DecidableEq

structure FsNode where
  name : Bytes
  flags : BitVec 32
  size : UInt32
  startCluster : UInt32
  creationMilisecond : UInt16
  creationTimestamp : Int
  accessedTimestamp : Int
  modifiedTimestamp : Int
  parentCluster : Nat
  parentClusterIndex : Nat

structure DirectoryIterator where
  currentIndex : Int
  currentCluster : Nat

-- the bytes that a pointer to `directory + i` reaches
def slotAt (directory : Bytes) (i : Nat) : List UInt8 := (List.range 32).map fun k => directory (i + k)

-- the string in a `name` field
def cString (name : Bytes) : Name := ((List.range filenameLimit).map name).takeWhile (· ≠ 0)

-- What a pass through the slots of a cluster comes to.
inductive Scan
  | ended (s : Decoder)
  | free
  | entry (i : Nat) (s : Decoder) (dir : FatDirectoryEntry)

def scanCluster (directory : Bytes) : (slots : Nat) → (i : Nat) → Decoder → Scan
  | 0, _, s => .ended s
  | slots + 1, i, s =>
      if directory i = 0x00 then .free
      else if directory i = 0xe5 then scanCluster directory slots (i + 32) s
      else if directory (i + 11) = 0x0f then
        scanCluster directory slots (i + 32) (s.processLfnEntry (.ofBytes (slotAt directory i)))
      else
        let dir := FatDirectoryEntry.ofBytes (slotAt directory i)
        .entry i (if s.lfnReady then s else s.processSfnEntry dir) dir

-- the name goes to `ret_node->name` with a `memcpy` of `namelen` bytes
def Decoder.copyName (s : Decoder) (name : Bytes) : Bytes :=
  fun k => if k < toUnsigned s.namelen then s.entryName k else if k = toUnsigned s.namelen then 0 else name k

def startClusterOf (dir : FatDirectoryEntry) : UInt32 :=
  dir.firstClusterNumberHigh.toUInt32 <<< 16 ||| dir.firstClusterNumberLow.toUInt32

def fillNode (rootdirCluster : UInt32) (ret : FsNode) (current i : Nat) (s : Decoder) (dir : FatDirectoryEntry) :
    FsNode :=
  let name := s.copyName ret.name
  { name := name
    flags := toFsNodeFlags dir.attr
    size := dir.size
    startCluster := if startClusterOf dir = 0 ∧ cString name = dotdot then rootdirCluster else startClusterOf dir
    creationMilisecond := dir.centisecond.toUInt16 * 10
    creationTimestamp := parseDatetime dir.creationDate dir.creationTime
    accessedTimestamp := parseDatetime dir.lastAccessDate 0
    modifiedTimestamp := parseDatetime dir.lastModDate dir.lastModTime
    parentCluster := current
    parentClusterIndex := i }

namespace Disk

def slotCount (d : Disk) (i : Nat) : Nat := (d.clusterSize - i + 31) / 32

-- The outer loop, `none` when the clusters do not end within `fuel` rounds.
def iterateLoop (d : Disk) (rootdirCluster : UInt32) (ret : FsNode) :
    (fuel : Nat) → (current iter : Nat) → Decoder → Option (DirErr × Option (DirectoryIterator × FsNode))
  | 0, _, _, _ => none
  | fuel + 1, current, iter, s =>
      match scanCluster (d.data current) (d.slotCount iter) iter s with
      | .free => some (.eof, none)
      | .entry i s dir => some (.success, some (⟨i, current⟩, fillNode rootdirCluster ret current i s dir))
      | .ended s =>
          let val := d.fat.getFatEntry current
          if val ≥ fatEoc then some (.eof, none)
          else if val = fatBadCluster then some (.badCluster, none)
          else iterateLoop d rootdirCluster ret fuel val 0 s

-- `entryName` is what the stack holds before the call.
def fat32IterateDirectory (d : Disk) (rootdirCluster : UInt32) (fuel : Nat) (diriter : DirectoryIterator) (ret : FsNode)
    (entryName : Int → UInt8) : Option (DirErr × Option (DirectoryIterator × FsNode)) :=
  let iter := toUnsigned (diriter.currentIndex + 32)
  if iter ≥ d.clusterSize then
    let val := d.fat.getFatEntry diriter.currentCluster
    if val ≥ fatEoc then some (.eof, none)
    else if val = fatBadCluster then some (.badCluster, none)
    else d.iterateLoop rootdirCluster ret fuel val 0 (.start entryName)
  else d.iterateLoop rootdirCluster ret fuel diriter.currentCluster iter (.start entryName)

end Disk

/-! ## Reading is a scan of slots -/

theorem slotAt_getD {k : Nat} (inside : k < 32) (directory : Bytes) (i : Nat) :
    (slotAt directory i).getD k 0 = directory (i + k) := by
  simp [slotAt, inside]

theorem length_slotAt (directory : Bytes) (i : Nat) : (slotAt directory i).length = 32 := by
  rw [slotAt, List.length_map, List.length_range]

namespace Scan

def place (f : Nat → Nat) : Scan → Scan
  | ended s => ended s
  | free => free
  | entry i s dir => entry (f i) s dir

@[simp] theorem place_place (f g : Nat → Nat) (r : Scan) : (r.place f).place g = r.place (g ∘ f) := by
  cases r <;> rfl

theorem place_ended (f : Nat → Nat) (s : Decoder) : (ended s).place f = ended s := rfl

theorem of_place_entry {f : Nat → Nat} {r : Scan} {i : Nat} {s : Decoder} {dir : FatDirectoryEntry}
    (placed : r.place f = entry i s dir) : ∃ k, r = entry k s dir := by
  cases r with
  | ended s => cases placed
  | free => cases placed
  | entry k s dir =>
      cases placed
      exact ⟨k, rfl⟩

end Scan

/-- The scan of a list of slots; the slots passed are counted. -/
def scanSlots : List (List UInt8) → Decoder → Scan
  | [], s => .ended s
  | slot :: slots, s =>
      if slot.getD 0 0 = 0x00 then .free
      else if slot.getD 0 0 = 0xe5 then (scanSlots slots s).place (· + 1)
      else if slot.getD 11 0 = 0x0f then (scanSlots slots (s.processLfnEntry (.ofBytes slot))).place (· + 1)
      else
        let dir := FatDirectoryEntry.ofBytes slot
        .entry 0 (if s.lfnReady then s else s.processSfnEntry dir) dir

theorem scanSlots_cons (slot : List UInt8) (slots : List (List UInt8)) (s : Decoder) : scanSlots (slot :: slots) s =
    if slot.getD 0 0 = 0x00 then .free
    else if slot.getD 0 0 = 0xe5 then (scanSlots slots s).place (· + 1)
    else if slot.getD 11 0 = 0x0f then (scanSlots slots (s.processLfnEntry (.ofBytes slot))).place (· + 1)
    else .entry 0 (if s.lfnReady then s else s.processSfnEntry (.ofBytes slot)) (.ofBytes slot) := rfl

theorem scanSlots_entry {slots : List (List UInt8)} {s s' : Decoder} {p : Nat} {dir : FatDirectoryEntry}
    (found : scanSlots slots s = .entry p s' dir) : p < slots.length := by
  induction slots generalizing s p with
  | nil => cases found
  | cons slot slots ih =>
      have pass : ∀ s₁, (scanSlots slots s₁).place (· + 1) = .entry p s' dir → p < slots.length + 1 := by
        intro s₁ placed
        obtain ⟨q, rest⟩ := Scan.of_place_entry placed
        rw [rest] at placed
        cases placed
        exact Nat.succ_lt_succ (ih rest)
      rw [List.length_cons]
      rw [scanSlots_cons] at found
      split_ifs at found
      · exact pass _ found
      · exact pass _ found
      all_goals
        cases found
        exact Nat.zero_lt_succ _

theorem scanSlots_append (l r : List (List UInt8)) (s : Decoder) : scanSlots (l ++ r) s =
    match scanSlots l s with
    | .ended s => (scanSlots r s).place (l.length + ·)
    | found => found := by
  induction l generalizing s with
  | nil =>
      change scanSlots r s = (scanSlots r s).place (0 + ·)
      cases scanSlots r s <;> simp [Scan.place]
  | cons slot l ih =>
      have pass : ∀ s, (scanSlots (l ++ r) s).place (· + 1) =
          match (scanSlots l s).place (· + 1) with
          | .ended s => (scanSlots r s).place ((slot :: l).length + ·)
          | found => found := by
        intro s
        rw [ih]
        cases scanSlots l s with
        | ended s =>
            change ((scanSlots r s).place (l.length + ·)).place (· + 1) = (scanSlots r s).place ((slot :: l).length + ·)
            rw [Scan.place_place, List.length_cons]
            congr 1
            funext k
            simp only [Function.comp_apply]
            omega
        | free => rfl
        | entry i s dir => rfl
      rw [List.cons_append, scanSlots_cons, scanSlots_cons]
      split_ifs
      · rfl
      · exact pass s
      · exact pass _
      · rfl
      · rfl

/-- What ends the entries: the end of the chain, or a slot that was never used. -/
def Stops (slots : List (List UInt8)) : Prop := ∀ slot, slots.head? = some slot → slot.getD 0 0 = 0x00

/-- No slot in front of the first one that was never used is a directory entry. -/
def Quiet (slots : List (List UInt8)) : Prop :=
  ∀ slot ∈ slots.takeWhile (fun slot => slot.getD 0 0 ≠ 0x00), slot.getD 0 0 = 0xe5 ∨ slot.getD 11 0 = 0x0f

theorem Stops.quiet {slots : List (List UInt8)} (stops : Stops slots) : Quiet slots := by
  cases slots with
  | nil => rintro _ ⟨⟩
  | cons slot slots =>
      have free : ¬ decide (slot.getD 0 0 ≠ 0x00) = true := fun used => of_decide_eq_true used (stops slot rfl)
      intro other member
      rw [List.takeWhile_cons, if_neg free] at member
      cases member

theorem quiet_cons {slot : List UInt8} {slots : List (List UInt8)} (used : slot.getD 0 0 ≠ 0x00) :
    Quiet (slot :: slots) ↔ (slot.getD 0 0 = 0xe5 ∨ slot.getD 11 0 = 0x0f) ∧ Quiet slots := by
  rw [Quiet, List.takeWhile_cons, if_pos (decide_eq_true used), List.forall_mem_cons]
  rfl

theorem Quiet.scan {slots : List (List UInt8)} (quiet : Quiet slots) (s : Decoder) (i : Nat) (s' : Decoder)
    (dir : FatDirectoryEntry) : scanSlots slots s ≠ .entry i s' dir := by
  induction slots generalizing s i with
  | nil => rintro ⟨⟩
  | cons slot slots ih =>
      rw [scanSlots_cons]
      by_cases free : slot.getD 0 0 = 0x00
      · rw [if_pos free]
        rintro ⟨⟩
      · obtain ⟨noEntry, later⟩ := (quiet_cons free).mp quiet
        have pass : ∀ s₁, (scanSlots slots s₁).place (· + 1) ≠ .entry i s' dir := by
          intro s₁ placed
          obtain ⟨k, found⟩ := Scan.of_place_entry placed
          exact ih later s₁ k found
        rw [if_neg free]
        by_cases deleted : slot.getD 0 0 = 0xe5
        · rw [if_pos deleted]
          exact pass s
        · rw [if_neg deleted, if_pos (noEntry.resolve_left deleted)]
          exact pass _

theorem scan_of_not_quiet {slots : List (List UInt8)} (loud : ¬ Quiet slots) (s : Decoder) :
    ∃ i s' dir, scanSlots slots s = .entry i s' dir := by
  induction slots generalizing s with
  | nil => exact absurd (by rintro _ ⟨⟩) loud
  | cons slot slots ih =>
      rw [scanSlots_cons]
      by_cases free : slot.getD 0 0 = 0x00
      · refine absurd (Stops.quiet ?_) loud
        rintro _ ⟨⟩
        exact free
      · rw [quiet_cons free, not_and_or, not_or] at loud
        rw [if_neg free]
        have pass : ¬ Quiet slots → ∀ s₁, ∃ i s' dir, (scanSlots slots s₁).place (· + 1) = .entry i s' dir := by
          intro loud s₁
          obtain ⟨i, s', dir, found⟩ := ih loud s₁
          exact ⟨i + 1, s', dir, by rw [found]; rfl⟩
        split_ifs with deleted isLfn
        · exact pass (loud.resolve_left fun entry => entry.1 deleted) _
        · exact pass (loud.resolve_left fun entry => entry.2 isLfn) _
        · exact ⟨0, _, _, rfl⟩
        · exact ⟨0, _, _, rfl⟩

theorem scanSlots_short {slots : List (List UInt8)} {s s' : Decoder} {i : Nat} {dir : FatDirectoryEntry}
    (found : scanSlots slots s = .entry i s' dir) :
    ∃ slot, slots[i]? = some slot ∧ slot.getD 0 0 ≠ 0x00 ∧ slot.getD 0 0 ≠ 0xe5 ∧ slot.getD 11 0 ≠ 0x0f := by
  induction slots generalizing s i with
  | nil => cases found
  | cons slot slots ih =>
      have pass : ∀ s₁, (scanSlots slots s₁).place (· + 1) = .entry i s' dir →
          ∃ slot', (slot :: slots)[i]? = some slot' ∧ slot'.getD 0 0 ≠ 0x00 ∧ slot'.getD 0 0 ≠ 0xe5 ∧ slot'.getD 11 0 ≠ 0x0f := by
        intro s₁ placed
        obtain ⟨k, rest⟩ := Scan.of_place_entry placed
        rw [rest] at placed
        cases placed
        exact ih rest
      rw [scanSlots_cons] at found
      split_ifs at found with free deleted isLfn
      · exact pass _ found
      · exact pass _ found
      all_goals
        cases found
        exact ⟨slot, rfl, free, deleted, isLfn⟩

def slotsFrom (directory : Bytes) (i n : Nat) : List (List UInt8) := (List.range n).map fun k => slotAt directory (i + 32 * k)

theorem slotsFrom_succ (directory : Bytes) (i n : Nat) :
    slotsFrom directory i (n + 1) = slotAt directory i :: slotsFrom directory (i + 32) n := by
  rw [slotsFrom, List.range_succ_eq_map, List.map_cons, List.map_map, slotsFrom]
  congr 1
  apply List.map_congr_left
  intro k _
  rw [Function.comp_apply, Nat.mul_succ]
  congr 1
  omega

theorem scanCluster_eq (directory : Bytes) (n i : Nat) (s : Decoder) :
    scanCluster directory n i s = (scanSlots (slotsFrom directory i n) s).place (i + 32 * ·) := by
  induction n generalizing i s with
  | zero => rfl
  | succ n ih =>
      have head : (slotAt directory i).getD 0 0 = directory i := slotAt_getD (by decide) directory i
      have attr : (slotAt directory i).getD 11 0 = directory (i + 11) := slotAt_getD (by decide) directory i
      have pass : ∀ r : Scan, (r.place (· + 1)).place (i + 32 * ·) = r.place (i + 32 + 32 * ·) := by
        intro r
        rw [Scan.place_place]
        congr 1
        funext k
        simp only [Function.comp_apply]
        omega
      rw [slotsFrom_succ, scanCluster, scanSlots_cons, head, attr]
      split_ifs
      · rfl
      · rw [ih, pass]
      · rw [ih, pass]
      · rfl
      · rfl

namespace Disk

def slotsPerCluster (d : Disk) : Nat := d.clusterSize / 32

theorem clusterSize_eq (d : Disk) : d.clusterSize = 32 * d.slotsPerCluster := by
  rw [slotsPerCluster, clusterSize]
  omega

theorem slotsPerCluster_eq (d : Disk) : d.slotsPerCluster = 16 * d.sectorsPerCluster := by
  rw [slotsPerCluster, clusterSize]
  omega

def clusterSlots (d : Disk) (c : Nat) : List (List UInt8) := slotsFrom (d.data c) 0 d.slotsPerCluster

/-- The slots of a directory with the clusters `chain`. -/
def dirSlots (d : Disk) (chain : List Nat) : List (List UInt8) := chain.flatMap d.clusterSlots

theorem dirSlots_cons (d : Disk) (c : Nat) (cs : List Nat) :
    d.dirSlots (c :: cs) = d.clusterSlots c ++ d.dirSlots cs := List.flatMap_cons

@[simp] theorem length_clusterSlots (d : Disk) (c : Nat) : (d.clusterSlots c).length = d.slotsPerCluster := by
  rw [clusterSlots, slotsFrom, List.length_map, List.length_range]

/-- Each cluster of the list is followed by the next one. -/
def Linked (d : Disk) (chain : List Nat) : Prop :=
  chain.IsChain fun a b => d.fat.getFatEntry a = b ∧ b < fatBadCluster

theorem drop_slotsFrom (directory : Bytes) (i n k : Nat) :
    (slotsFrom directory i n).drop k = slotsFrom directory (i + 32 * k) (n - k) := by
  induction k generalizing i n with
  | zero => rfl
  | succ k ih =>
      cases n with
      | zero => rw [Nat.zero_sub]; rfl
      | succ n =>
          rw [slotsFrom_succ, List.drop_succ_cons, ih, Nat.add_sub_add_right]
          congr 1
          omega

theorem slotCount_eq (d : Disk) (k : Nat) : d.slotCount (32 * k) = d.slotsPerCluster - k := by
  rw [slotCount, clusterSize_eq]
  omega

theorem scan_drop (d : Disk) (c k : Nat) (s : Decoder) :
    scanCluster (d.data c) (d.slotCount (32 * k)) (32 * k) s =
      (scanSlots ((d.clusterSlots c).drop k) s).place (32 * k + 32 * ·) := by
  rw [clusterSlots, drop_slotsFrom, Nat.zero_add, scanCluster_eq, slotCount_eq]

/-- The clusters of a directory, up to the end of its chain. -/
structure DirChain (d : Disk) (chain : List Nat) : Prop where
  linked : d.Linked chain
  ends : ∀ c, chain.getLast? = some c → d.fat.getFatEntry c ≥ fatEoc
  nodup : chain.Nodup

theorem DirChain.tail {d : Disk} {c : Nat} {cs : List Nat} (on : d.DirChain (c :: cs)) : d.DirChain cs where
  linked := on.linked.tail
  ends b last := by
    refine on.ends b ?_
    cases cs with
    | nil => cases last
    | cons c₂ cs => rwa [List.getLast?_cons_cons]
  nodup := on.nodup.tail

theorem Linked.next {d : Disk} {c c₂ : Nat} {cs : List Nat} (linked : d.Linked (c :: c₂ :: cs)) :
    d.fat.getFatEntry c = c₂ ∧ ¬ c₂ ≥ fatEoc ∧ c₂ ≠ fatBadCluster := by
  obtain ⟨next, notBad⟩ := (List.isChain_cons_cons.mp linked).1
  refine ⟨next, ?_, notBad.ne⟩
  simp only [fatBadCluster, fatEoc] at notBad ⊢
  omega

/-- Slot `p` of the chain: its cluster and its index in it. -/
def clusterOf (d : Disk) (chain : List Nat) (p : Nat) : Nat := chain.getD (p / d.slotsPerCluster) 0
def indexOf (d : Disk) (p : Nat) : Nat := 32 * (p % d.slotsPerCluster)

/-- What the loop answers for the scan of the slots from slot `k` on. -/
def answer (d : Disk) (chain : List Nat) (rootdirCluster : UInt32) (ret : FsNode) (k : Nat) :
    Scan → DirErr × Option (DirectoryIterator × FsNode)
  | .entry p s dir =>
      let c := d.clusterOf chain (k + p)
      let i := d.indexOf (k + p)
      (.success, some (⟨i, c⟩, fillNode rootdirCluster ret c i s dir))
  | _ => (.eof, none)

theorem answer_none {r : Scan} (none : ∀ i s dir, r ≠ .entry i s dir) (d : Disk) (chain : List Nat) (rootdirCluster : UInt32)
    (ret : FsNode) (k : Nat) : d.answer chain rootdirCluster ret k r = (.eof, .none) := by
  cases r with
  | entry p s dir => exact absurd rfl (none p s dir)
  | ended => rfl
  | free => rfl

theorem answer_cons {d : Disk} (some : 0 < d.slotsPerCluster) (c : Nat) (chain : List Nat) (rootdirCluster : UInt32)
    (ret : FsNode) (k : Nat) (r : Scan) :
    d.answer (c :: chain) rootdirCluster ret (d.slotsPerCluster + k) r = d.answer chain rootdirCluster ret k r := by
  cases r with
  | entry p s dir =>
      have cluster : d.clusterOf (c :: chain) (d.slotsPerCluster + k + p) = d.clusterOf chain (k + p) := by
        rw [clusterOf, Nat.add_assoc, Nat.add_div_left _ some, List.getD_cons_succ, clusterOf]
      have index : d.indexOf (d.slotsPerCluster + k + p) = d.indexOf (k + p) := by
        rw [indexOf, Nat.add_assoc, Nat.add_mod_left, indexOf]
      simp only [answer, cluster, index]
  | ended => rfl
  | free => rfl

theorem answer_place (d : Disk) (chain : List Nat) (rootdirCluster : UInt32) (ret : FsNode) (k m : Nat) (r : Scan) :
    d.answer chain rootdirCluster ret k (r.place (m + ·)) = d.answer chain rootdirCluster ret (k + m) r := by
  cases r with
  | entry p s dir => simp only [Scan.place, answer, Nat.add_assoc]
  | ended => rfl
  | free => rfl

theorem answer_inside {d : Disk} {k p : Nat} (inside : k + p < d.slotsPerCluster) (c : Nat) (cs : List Nat) :
    d.clusterOf (c :: cs) (k + p) = c ∧ d.indexOf (k + p) = 32 * k + 32 * p := by
  rw [clusterOf, indexOf, Nat.div_eq_of_lt inside, Nat.mod_eq_of_lt inside, Nat.mul_add]
  exact ⟨rfl, rfl⟩

theorem iterateLoop_eq {d : Disk} {c k fuel : Nat} {cs : List Nat} (on : d.DirChain (c :: cs))
    (inside : k < d.slotsPerCluster) (enough : cs.length < fuel) (s : Decoder) (rootdirCluster : UInt32) (ret : FsNode) :
    d.iterateLoop rootdirCluster ret fuel c (32 * k) s =
      some (d.answer (c :: cs) rootdirCluster ret k (scanSlots ((d.dirSlots (c :: cs)).drop k) s)) := by
  induction cs generalizing c k fuel s with
  | nil =>
      obtain ⟨fuel, rfl⟩ := Nat.exists_eq_add_one.mpr (Nat.zero_lt_of_lt enough)
      rw [dirSlots_cons, dirSlots, List.flatMap_nil, List.append_nil, iterateLoop, scan_drop]
      cases here : scanSlots ((d.clusterSlots c).drop k) s with
      | free => rfl
      | ended s₁ => simp only [Scan.place, if_pos (on.ends c rfl), answer]
      | entry p s₁ dir =>
          have place := answer_inside (d := d) (k := k) (p := p) ?_ c []
          · simp only [Scan.place, answer, place.1, place.2]
          · have before := scanSlots_entry here
            rw [List.length_drop, length_clusterSlots] at before
            omega
  | cons c₂ cs ih =>
      obtain ⟨fuel, rfl⟩ := Nat.exists_eq_add_one.mpr (Nat.zero_lt_of_lt enough)
      rw [dirSlots_cons, List.drop_append_of_le_length (by rw [length_clusterSlots]; exact inside.le),
        scanSlots_append, iterateLoop, scan_drop]
      cases here : scanSlots ((d.clusterSlots c).drop k) s with
      | free => rfl
      | entry p s₁ dir =>
          have place := answer_inside (d := d) (k := k) (p := p) ?_ c (c₂ :: cs)
          · simp only [Scan.place, answer, place.1, place.2]
          · have before := scanSlots_entry here
            rw [List.length_drop, length_clusterSlots] at before
            omega
      | ended s₁ =>
          obtain ⟨next, notEnd, notBad⟩ := on.linked.next
          have run := ih on.tail (k := 0) (Nat.zero_lt_of_lt inside) (Nat.succ_lt_succ_iff.mp enough) s₁
          rw [Nat.mul_zero] at run
          rw [Scan.place_ended]
          dsimp only
          rw [next, if_neg notEnd, if_neg notBad, run, answer_place, List.length_drop, length_clusterSlots,
            show k + (d.slotsPerCluster - k) = d.slotsPerCluster + 0 by omega, answer_cons (Nat.zero_lt_of_lt inside)]
          rfl

end Disk

end Kerosene.Fat32
