import Kerosene.Fat32.LongNames

/-!
# Listing a directory

A well-formed directory is a list of items: deleted slots, and files with their long-name slots in front
of the directory entry. `fat32_iterate_directory` lists the files, whatever the stack and the node held before.
-/

namespace Kerosene.Fat32
open Lib
open Ramfs (Name filenameLimit)
open Ramfs.Heap (dotdot)

structure Listed where
  name : Name
  flags : BitVec 32
  size : UInt32
  startCluster : UInt32
  creationMilisecond : UInt16
  creationTimestamp : Int
  accessedTimestamp : Int
  modifiedTimestamp : Int
  parentCluster : Nat
  parentClusterIndex : Nat

def FsNode.listed (node : FsNode) : Listed where
  name := cString node.name
  flags := node.flags
  size := node.size
  startCluster := node.startCluster
  creationMilisecond := node.creationMilisecond
  creationTimestamp := node.creationTimestamp
  accessedTimestamp := node.accessedTimestamp
  modifiedTimestamp := node.modifiedTimestamp
  parentCluster := node.parentCluster
  parentClusterIndex := node.parentClusterIndex

-- What a call finds in `ret_node` and on its stack.
structure Stale where
  ret : FsNode
  entryName : Int → UInt8

namespace Disk

def fat32SetupDirectoryIterator (startCluster : Nat) : DirectoryIterator := ⟨-32, startCluster⟩

-- calls of `fat32_iterate_directory` up to `ERR_FS_EOF`
def iterateAll (d : Disk) (rootdirCluster : UInt32) (fuel : Nat) (stale : Nat → Stale) :
    (rounds : Nat) → DirectoryIterator → Option (List Listed)
  | 0, _ => none
  | rounds + 1, diriter =>
      match d.fat32IterateDirectory rootdirCluster fuel diriter (stale rounds).ret (stale rounds).entryName with
      | some (.success, some (diriter, node)) =>
          (iterateAll d rootdirCluster fuel stale rounds diriter).map (node.listed :: ·)
      | some (.eof, none) => some []
      | _ => none

def listDirectory (d : Disk) (rootdirCluster : UInt32) (fuel : Nat) (stale : Nat → Stale) (startCluster : Nat) :
    Option (List Listed) :=
  d.iterateAll rootdirCluster fuel stale fuel (fat32SetupDirectoryIterator startCluster)

/-! ## A call from any position -/

/-- A cluster has a sector, and their number fits in a byte. -/
structure Sized (d : Disk) : Prop where
  sectors : 1 ≤ d.sectorsPerCluster
  byte : d.sectorsPerCluster < 2 ^ 8

variable {d : Disk} {chain : List Nat} {k p : Nat}

theorem Sized.slots (sized : d.Sized) : 16 ≤ d.slotsPerCluster ∧ d.slotsPerCluster < 2 ^ 12 := by
  have := sized.sectors
  have := sized.byte
  rw [slotsPerCluster_eq]
  omega

theorem DirChain.drop (on : d.DirChain chain) (j : Nat) : d.DirChain (chain.drop j) := by
  induction j generalizing chain with
  | zero => exact on
  | succ j ih =>
      cases chain with
      | nil => exact on
      | cons c chain => exact ih on.tail

theorem dirSlots_drop (d : Disk) (chain : List Nat) (j : Nat) :
    d.dirSlots (chain.drop j) = (d.dirSlots chain).drop (d.slotsPerCluster * j) := by
  induction j generalizing chain with
  | zero => rfl
  | succ j ih =>
      cases chain with
      | nil => exact (List.drop_nil).symm
      | cons c chain =>
          rw [List.drop_succ_cons, ih, dirSlots_cons, Nat.mul_succ, Nat.add_comm, ← List.drop_drop,
            List.drop_left' (d.length_clusterSlots c)]

theorem length_dirSlots (d : Disk) (chain : List Nat) : (d.dirSlots chain).length = d.slotsPerCluster * chain.length := by
  induction chain with
  | nil => rfl
  | cons c chain ih => rw [dirSlots_cons, List.length_append, length_clusterSlots, ih, List.length_cons, Nat.mul_succ, Nat.add_comm]

theorem answer_drop (some : 0 < d.slotsPerCluster) (rootdirCluster : UInt32) (ret : FsNode) (r : Scan) (j : Nat)
    (inside : j ≤ chain.length) :
    d.answer (chain.drop j) rootdirCluster ret k r = d.answer chain rootdirCluster ret (d.slotsPerCluster * j + k) r := by
  induction j generalizing chain with
  | zero => rw [Nat.mul_zero, Nat.zero_add, List.drop_zero]
  | succ j ih =>
      cases chain with
      | nil => cases inside
      | cons c chain =>
          rw [List.drop_succ_cons, ih (Nat.le_of_succ_le_succ inside), Nat.mul_succ, Nat.add_comm _ d.slotsPerCluster,
            Nat.add_assoc, answer_cons some]

/-- The iterator when the slots before `p` have been read. -/
def iterAt (d : Disk) (chain : List Nat) : Nat → DirectoryIterator
  | 0 => ⟨-32, chain.getD 0 0⟩
  | p + 1 => ⟨d.indexOf p, d.clusterOf chain p⟩

theorem DirChain.row (on : d.DirChain chain) (inside : p < (d.dirSlots chain).length) :
    ∃ cs, chain.drop (p / d.slotsPerCluster) = d.clusterOf chain p :: cs ∧ d.DirChain (d.clusterOf chain p :: cs) ∧
      p / d.slotsPerCluster < chain.length ∧ p % d.slotsPerCluster < d.slotsPerCluster ∧
      (d.dirSlots (d.clusterOf chain p :: cs)).drop (p % d.slotsPerCluster) = (d.dirSlots chain).drop p := by
  rw [length_dirSlots] at inside
  have pos : 0 < d.slotsPerCluster := Nat.pos_of_ne_zero fun zero => by simp [zero] at inside
  have row : p / d.slotsPerCluster < chain.length := Nat.div_lt_of_lt_mul inside
  have here : chain.drop (p / d.slotsPerCluster) = d.clusterOf chain p :: chain.drop (p / d.slotsPerCluster + 1) := by
    rw [List.drop_eq_getElem_cons row, clusterOf, List.getD_eq_getElem?_getD, List.getElem?_eq_getElem row]
    rfl
  refine ⟨_, here, here ▸ on.drop _, row, Nat.mod_lt p pos, ?_⟩
  rw [← here, dirSlots_drop, List.drop_drop, Nat.div_add_mod]

theorem iterateLoop_at {fuel : Nat} (on : d.DirChain chain) (inside : p < (d.dirSlots chain).length)
    (enough : chain.length ≤ fuel) (s : Decoder) (rootdirCluster : UInt32) (ret : FsNode) :
    d.iterateLoop rootdirCluster ret fuel (d.clusterOf chain p) (d.indexOf p) s =
      some (d.answer chain rootdirCluster ret p (scanSlots ((d.dirSlots chain).drop p) s)) := by
  obtain ⟨cs, here, on', row, column, slots⟩ := on.row inside
  have rest := congrArg List.length here
  rw [List.length_drop, List.length_cons] at rest
  have fewer : cs.length + 1 ≤ chain.length := rest ▸ Nat.sub_le _ _
  rw [indexOf, iterateLoop_eq on' column (fewer.trans enough), slots, ← here,
    answer_drop (Nat.zero_lt_of_lt column) rootdirCluster ret _ _ row.le, Nat.div_add_mod]

/-- Where a call of `fat32_iterate_directory` starts to read, and which slot that is. -/
inductive StartsAt (d : Disk) (chain : List Nat) (p iter current : Nat) : Prop
  | here (inside : p < (d.dirSlots chain).length) (room : iter < d.clusterSize) (cluster : current = d.clusterOf chain p)
      (index : iter = d.indexOf p) : StartsAt d chain p iter current
  | next (inside : p < (d.dirSlots chain).length) (past : d.clusterSize ≤ iter)
      (link : d.fat.getFatEntry current = d.clusterOf chain p) (notEnd : ¬ d.clusterOf chain p ≥ fatEoc)
      (notBad : d.clusterOf chain p ≠ fatBadCluster) (index : d.indexOf p = 0) : StartsAt d chain p iter current
  | atEnd (all : p = (d.dirSlots chain).length) (past : d.clusterSize ≤ iter) (last : d.fat.getFatEntry current ≥ fatEoc) :
      StartsAt d chain p iter current

theorem iterAt_starts (sized : d.Sized) (on : d.DirChain chain) (nonempty : chain ≠ [])
    (inside : p ≤ (d.dirSlots chain).length) :
    d.StartsAt chain p (toUnsigned ((d.iterAt chain p).currentIndex + 32)) (d.iterAt chain p).currentCluster := by
  have slots := sized.slots
  have size := d.clusterSize_eq
  have some := List.length_pos_of_ne_nil nonempty
  cases p with
  | zero =>
      have first : toUnsigned ((d.iterAt chain 0).currentIndex + 32) = d.indexOf 0 := rfl
      have cluster : (d.iterAt chain 0).currentCluster = d.clusterOf chain 0 := by
        rw [iterAt, clusterOf, Nat.zero_div]
      rw [first, cluster]
      refine .here ?_ (by rw [indexOf, Nat.zero_mod]; omega) rfl rfl
      rw [length_dirSlots]
      exact Nat.mul_pos (by omega) some
  | succ p =>
      obtain ⟨row, col, rfl, small⟩ : ∃ row col, p = d.slotsPerCluster * row + col ∧ col < d.slotsPerCluster :=
        ⟨p / d.slotsPerCluster, p % d.slotsPerCluster, (Nat.div_add_mod ..).symm, Nat.mod_lt _ (by omega)⟩
      have rowOf : (d.slotsPerCluster * row + col) / d.slotsPerCluster = row := by
        rw [Nat.mul_add_div (by omega), Nat.div_eq_of_lt small, Nat.add_zero]
      have colOf : (d.slotsPerCluster * row + col) % d.slotsPerCluster = col := by
        rw [Nat.mul_add_mod, Nat.mod_eq_of_lt small]
      have index : toUnsigned ((d.indexOf (d.slotsPerCluster * row + col) : Nat) + 32) = 32 * (col + 1) := by
        rw [indexOf, colOf, toUnsigned]
        omega
      rw [length_dirSlots] at inside
      have before : row < chain.length := by
        by_contra past
        have := Nat.mul_le_mul_left d.slotsPerCluster (not_lt.mp past)
        omega
      have here : chain.drop row = chain[row] :: chain.drop (row + 1) := List.drop_eq_getElem_cons before
      have cluster : d.clusterOf chain (d.slotsPerCluster * row + col) = chain[row] := by
        rw [clusterOf, rowOf, List.getD_eq_getElem?_getD, List.getElem?_eq_getElem before]
        rfl
      have on' := on.drop row
      rw [here] at on'
      rw [iterAt]
      dsimp only
      rw [index, cluster]
      by_cases last : col + 1 = d.slotsPerCluster
      · -- the next slot is in the next cluster
        have next : d.slotsPerCluster * row + col + 1 = d.slotsPerCluster * (row + 1) := by
          rw [Nat.mul_succ]
          omega
        rw [next]
        cases rest : chain.drop (row + 1) with
        | nil =>
            rw [rest] at on'
            have count : chain.length = row + 1 := by
              have none := List.drop_eq_nil_iff.mp rest
              omega
            exact .atEnd (by rw [length_dirSlots, count]) (by omega) (on'.ends _ rfl)
        | cons c₂ cs =>
            rw [rest] at on'
            obtain ⟨link, notEnd, notBad⟩ := on'.linked.next
            have after : row + 1 < chain.length := by
              by_contra past
              rw [List.drop_of_length_le (not_lt.mp past)] at rest
              cases rest
            have cluster₂ : d.clusterOf chain (d.slotsPerCluster * (row + 1)) = c₂ := by
              rw [clusterOf, Nat.mul_div_cancel_left _ (by omega), List.getD_eq_getElem?_getD, ← List.head?_drop, rest]
              rfl
            have index₂ : d.indexOf (d.slotsPerCluster * (row + 1)) = 0 := by rw [indexOf, Nat.mul_mod_right]
            have within : d.slotsPerCluster * (row + 1) < (d.dirSlots chain).length := by
              rw [length_dirSlots]
              exact Nat.mul_lt_mul_of_pos_left after (by omega)
            exact .next within (by omega) (by rw [cluster₂, link]) (by rwa [cluster₂]) (by rwa [cluster₂]) index₂
      · have cluster₂ : d.clusterOf chain (d.slotsPerCluster * row + (col + 1)) = chain[row] := by
          rw [clusterOf, Nat.mul_add_div (by omega), Nat.div_eq_of_lt (by omega), Nat.add_zero, List.getD_eq_getElem?_getD,
            List.getElem?_eq_getElem before]
          rfl
        have index₂ : d.indexOf (d.slotsPerCluster * row + (col + 1)) = 32 * (col + 1) := by
          rw [indexOf, Nat.mul_add_mod, Nat.mod_eq_of_lt (by omega)]
        have within : d.slotsPerCluster * row + (col + 1) < (d.dirSlots chain).length := by
          have := Nat.mul_le_mul_left d.slotsPerCluster (Nat.succ_le_of_lt before)
          rw [Nat.mul_succ] at this
          rw [length_dirSlots]
          omega
        exact .here within (by omega) cluster₂.symm index₂.symm

theorem iterateDirectory_eq {fuel : Nat} (sized : d.Sized) (on : d.DirChain chain) (nonempty : chain ≠ [])
    (inside : p ≤ (d.dirSlots chain).length) (enough : chain.length ≤ fuel) (rootdirCluster : UInt32) (ret : FsNode)
    (entryName : Int → UInt8) :
    d.fat32IterateDirectory rootdirCluster fuel (d.iterAt chain p) ret entryName =
      some (d.answer chain rootdirCluster ret p (scanSlots ((d.dirSlots chain).drop p) (.start entryName))) := by
  have run := fun within => iterateLoop_at (p := p) on within enough (.start entryName) rootdirCluster ret
  simp only [fat32IterateDirectory]
  cases iterAt_starts sized on nonempty inside with
  | here within room cluster index =>
      rw [if_neg (not_le.mpr room), cluster, index]
      exact run within
  | next within past link notEnd notBad index =>
      rw [if_pos past, link, if_neg notEnd, if_neg notBad, ← index]
      exact run within
  | atEnd all past last =>
      rw [if_pos past, if_pos last, all, List.drop_length]
      rfl

end Disk

/-! ## Items -/

inductive Item
  | hole (slot : List UInt8)
  | file (name : Name) (long : List (List UInt8)) (short : List UInt8)

namespace Item

def slots : Item → List (List UInt8)
  | hole slot => [slot]
  | file _ long short => long ++ [short]

/-- A directory entry that is not taken for a free slot or a part of a long name. -/
structure Short (slot : List UInt8) : Prop where
  used : slot.getD 0 0 ≠ 0x00
  kept : slot.getD 0 0 ≠ 0xe5
  attr : slot.getD 11 0 ≠ 0x0f

/-- Without long-name slots the name is that of the directory entry. -/
inductive Named : Name → List (List UInt8) → List UInt8 → Prop
  | short {slot : List UInt8} (nonzero : ∀ c ∈ sfnText (.ofBytes slot), c ≠ 0) : Named (sfnText (.ofBytes slot)) [] slot
  | long {name : Name} {long : List (List UInt8)} {slot : List UInt8} (group : LongGroup name long) : Named name long slot

inductive Valid : Item → Prop
  | hole {slot : List UInt8} (deleted : slot.getD 0 0 = 0xe5) : Valid (hole slot)
  | file {name : Name} {long : List (List UInt8)} {short : List UInt8} (isShort : Short short) (named : Named name long short) :
      Valid (file name long short)

end Item

def slotsOf (items : List Item) : List (List UInt8) := items.flatMap Item.slots

theorem slotsOf_cons (item : Item) (items : List Item) : slotsOf (item :: items) = item.slots ++ slotsOf items :=
  List.flatMap_cons

theorem slotsOf_append (l r : List Item) : slotsOf (l ++ r) = slotsOf l ++ slotsOf r := List.flatMap_append

def Item.listed (rootdirCluster : UInt32) (name : Name) (dir : FatDirectoryEntry) (c i : Nat) : Listed where
  name := name
  flags := toFsNodeFlags dir.attr
  size := dir.size
  startCluster := if startClusterOf dir = 0 ∧ name = dotdot then rootdirCluster else startClusterOf dir
  creationMilisecond := dir.centisecond.toUInt16 * 10
  creationTimestamp := parseDatetime dir.creationDate dir.creationTime
  accessedTimestamp := parseDatetime dir.lastAccessDate 0
  modifiedTimestamp := parseDatetime dir.lastModDate dir.lastModTime
  parentCluster := c
  parentClusterIndex := i

/-- The files of the items whose first slot is `p`. -/
def Disk.filesFrom (d : Disk) (chain : List Nat) (rootdirCluster : UInt32) : Nat → List Item → List Listed
  | _, [] => []
  | p, .hole _ :: items => filesFrom d chain rootdirCluster (p + 1) items
  | p, .file name long short :: items =>
      let q := p + long.length
      Item.listed rootdirCluster name (.ofBytes short) (d.clusterOf chain q) (d.indexOf q) ::
        filesFrom d chain rootdirCluster (q + 1) items

theorem FatLfnEntry.order_ne {n : Nat} (pos : 0 < n) (small : n ≤ 20) (b : Bool) :
    UInt8.ofNat n ||| (if b then 0x40 else 0) ≠ 0x00 ∧ UInt8.ofNat n ||| (if b then 0x40 else 0) ≠ 0xe5 := by
  have all : ∀ n ≤ 20, 0 < n → ∀ b : Bool, UInt8.ofNat n ||| (if b then 0x40 else 0) ≠ 0x00 ∧
      UInt8.ofNat n ||| (if b then 0x40 else 0) ≠ 0xe5 := by
    decide
  exact all n small pos b

theorem scanSlots_long {long rest : List (List UInt8)} (used : ∀ slot ∈ long, slot.getD 0 0 ≠ 0x00 ∧ slot.getD 0 0 ≠ 0xe5)
    (attr : ∀ slot ∈ long, slot.getD 11 0 = 0x0f) (s : Decoder) :
    scanSlots (long ++ rest) s = (scanSlots rest (readLong long s)).place (long.length + ·) := by
  induction long generalizing s with
  | nil =>
      change scanSlots rest s = (scanSlots rest s).place (0 + ·)
      cases scanSlots rest s <;> simp [Scan.place]
  | cons slot long ih =>
      obtain ⟨first, later⟩ := List.forall_mem_cons.mp used
      rw [List.cons_append, scanSlots_cons, if_neg first.1, if_neg first.2, if_pos (attr slot List.mem_cons_self),
        ih later fun slot member => attr slot (List.mem_cons_of_mem _ member), Scan.place_place]
      change (scanSlots rest (readLong long _)).place _ = (scanSlots rest (readLong long _)).place _
      congr 1
      funext k
      simp only [Function.comp_apply, List.length_cons]
      omega

theorem LongGroup.used {name : Name} {long : List (List UInt8)} (group : LongGroup name long) :
    ∀ slot ∈ long, slot.getD 0 0 ≠ 0x00 ∧ slot.getD 0 0 ≠ 0xe5 := by
  intro slot member
  obtain ⟨k, inside, rfl⟩ := List.getElem_of_mem member
  have order := group.order k _ (List.getElem?_eq_getElem inside)
  have few := group.few
  rw [FatLfnEntry.order_ofBytes] at order
  rw [order]
  have ne := FatLfnEntry.order_ne (n := long.length - k) (by omega) (by rw [group.count]; omega) (decide (k = 0))
  simpa only [decide_eq_true_eq] using ne

theorem Item.Short.scan {slot : List UInt8} (isShort : Short slot) (slots : List (List UInt8)) (s : Decoder) :
    scanSlots (slot :: slots) s =
      .entry 0 (if s.lfnReady then s else s.processSfnEntry (.ofBytes slot)) (.ofBytes slot) := by
  rw [scanSlots_cons, if_neg isShort.used, if_neg isShort.kept, if_neg isShort.attr]

theorem Item.Valid.scan_file {name : Name} {long : List (List UInt8)} {short : List UInt8}
    (valid : (Item.file name long short).Valid) (rest : List (List UInt8)) (entryName : Int → UInt8) :
    ∃ s, scanSlots ((Item.file name long short).slots ++ rest) (.start entryName) =
      .entry long.length s (.ofBytes short) ∧ ∀ old, cString (s.copyName old) = name := by
  cases valid with
  | file isShort named =>
      cases named with
      | short nonzero =>
          refine ⟨_, isShort.scan rest _, fun old => ?_⟩
          exact cString_sfn nonzero _ old
      | long group =>
          have decoded := group.decoded (s := .start entryName) rfl
          refine ⟨readLong long (.start entryName), ?_, decoded.cString group.nonzero group.short⟩
          rw [slots, List.append_assoc, scanSlots_long group.used fun slot member => by
            rw [← FatLfnEntry.attr_ofBytes]
            exact group.attr slot member]
          rw [List.singleton_append, isShort.scan, decoded.ready, if_pos rfl]
          rfl

namespace Disk
variable {d : Disk} {chain : List Nat} {items : List Item} {p : Nat}

/-- A well-formed directory: its chain, and its items up to where the entries stop. -/
structure Directory (d : Disk) (chain : List Nat) (items : List Item) : Prop where
  on : d.DirChain chain
  nonempty : chain ≠ []
  valid : ∀ item ∈ items, item.Valid
  slots : ∃ tail, d.dirSlots chain = slotsOf items ++ tail ∧ Stops tail

theorem iterateAll_congr {a b : DirectoryIterator} {fuel : Nat} {rootdirCluster : UInt32}
    (same : ∀ ret entryName, d.fat32IterateDirectory rootdirCluster fuel a ret entryName =
      d.fat32IterateDirectory rootdirCluster fuel b ret entryName) (stale : Nat → Stale) (rounds : Nat) :
    d.iterateAll rootdirCluster fuel stale rounds a = d.iterateAll rootdirCluster fuel stale rounds b := by
  cases rounds with
  | zero => rfl
  | succ rounds => rw [iterateAll, iterateAll, same]

theorem listed_fillNode {s : Decoder} {name : Name} (named : ∀ old, cString (s.copyName old) = name)
    (rootdirCluster : UInt32) (ret : FsNode) (c i : Nat) (dir : FatDirectoryEntry) :
    (fillNode rootdirCluster ret c i s dir).listed = Item.listed rootdirCluster name dir c i := by
  simp only [fillNode, FsNode.listed, Item.listed, named]

theorem iterateAll_prefix {fuel rounds : Nat} {rest : List (List UInt8)} (sized : d.Sized) (on : d.DirChain chain)
    (nonempty : chain ≠ []) (valid : ∀ item ∈ items, item.Valid) (here : (d.dirSlots chain).drop p = slotsOf items ++ rest)
    (inside : p ≤ (d.dirSlots chain).length) (enough : chain.length ≤ fuel) (enough' : items.length < rounds)
    (rootdirCluster : UInt32) (stale : Nat → Stale) :
    ∃ later, rounds ≤ later + items.length ∧ d.iterateAll rootdirCluster fuel stale rounds (d.iterAt chain p) =
      (d.iterateAll rootdirCluster fuel stale later (d.iterAt chain (p + (slotsOf items).length))).map
        (d.filesFrom chain rootdirCluster p items ++ ·) := by
  have call : ∀ p, p ≤ (d.dirSlots chain).length → ∀ ret entryName,
      d.fat32IterateDirectory rootdirCluster fuel (d.iterAt chain p) ret entryName =
        some (d.answer chain rootdirCluster ret p (scanSlots ((d.dirSlots chain).drop p) (.start entryName))) :=
    fun p inside ret entryName => iterateDirectory_eq sized on nonempty inside enough rootdirCluster ret entryName
  induction items generalizing p rounds with
  | nil =>
      refine ⟨rounds, Nat.le_refl _, ?_⟩
      change _ = (d.iterateAll rootdirCluster fuel stale rounds (d.iterAt chain p)).map fun later => later
      rw [Option.map_id']
  | cons item items ih =>
      obtain ⟨first, later⟩ := List.forall_mem_cons.mp valid
      rw [List.length_cons] at enough'
      rw [slotsOf_cons, List.append_assoc] at here
      have length := congrArg List.length here
      rw [List.length_drop, List.length_append] at length
      have behind : (d.dirSlots chain).drop (p + item.slots.length) = slotsOf items ++ rest := by
        rw [← List.drop_drop, here, List.drop_left]
      cases item with
      | hole slot =>
          have deleted : slot.getD 0 0 = 0xe5 := by
            cases first with
            | hole deleted => exact deleted
          have used : slot.getD 0 0 ≠ 0x00 := by
            rw [deleted]
            decide
          rw [Item.slots, List.length_singleton] at length behind
          obtain ⟨left, count, run⟩ := ih later behind (by omega) (Nat.lt_of_succ_lt enough')
          refine ⟨left, by rw [List.length_cons]; omega, ?_⟩
          rw [filesFrom, slotsOf_cons, List.length_append, Item.slots, List.length_singleton, ← Nat.add_assoc, ← run]
          refine iterateAll_congr (fun ret entryName => ?_) stale rounds
          rw [call p inside, call (p + 1) (by omega), here, behind, Item.slots, List.singleton_append, scanSlots_cons,
            if_neg used, if_pos deleted]
          have placed := d.answer_place chain rootdirCluster ret p 1 (scanSlots (slotsOf items ++ rest) (.start entryName))
          simp only [Nat.add_comm 1] at placed
          exact congrArg some placed
      | file name long short =>
          obtain ⟨rounds, rfl⟩ := Nat.exists_eq_add_one.mpr (Nat.zero_lt_of_lt enough')
          obtain ⟨s, found, named⟩ := first.scan_file (slotsOf items ++ rest) (stale rounds).entryName
          rw [Item.slots, List.length_append, List.length_singleton] at length behind
          rw [← Nat.add_assoc] at behind
          obtain ⟨left, count, run⟩ := ih later behind (by omega) (Nat.succ_lt_succ_iff.mp enough')
          have place : p + (slotsOf (.file name long short :: items)).length = p + long.length + 1 + (slotsOf items).length := by
            rw [slotsOf_cons, List.length_append, Item.slots, List.length_append, List.length_singleton]
            omega
          refine ⟨left, by rw [List.length_cons]; omega, ?_⟩
          rw [iterAt] at run
          rw [iterateAll, call p inside, here, found]
          simp only [answer, run, listed_fillNode named, filesFrom, place, Option.map_map]
          rfl

theorem iterateAll_items {fuel rounds : Nat} {tail : List (List UInt8)} (sized : d.Sized) (on : d.DirChain chain)
    (nonempty : chain ≠ []) (valid : ∀ item ∈ items, item.Valid) (here : (d.dirSlots chain).drop p = slotsOf items ++ tail)
    (inside : p ≤ (d.dirSlots chain).length) (quiet : Quiet tail) (enough : chain.length ≤ fuel)
    (enough' : items.length < rounds) (rootdirCluster : UInt32) (stale : Nat → Stale) :
    d.iterateAll rootdirCluster fuel stale rounds (d.iterAt chain p) =
      some (d.filesFrom chain rootdirCluster p items) := by
  obtain ⟨later, count, run⟩ := iterateAll_prefix sized on nonempty valid here inside enough enough' rootdirCluster stale
  obtain ⟨later, rfl⟩ := Nat.exists_eq_add_one.mpr (show 0 < later by omega)
  have length := congrArg List.length here
  rw [List.length_drop, List.length_append] at length
  have behind : (d.dirSlots chain).drop (p + (slotsOf items).length) = tail := by
    rw [← List.drop_drop, here, List.drop_left]
  rw [run, iterateAll, iterateDirectory_eq sized on nonempty (by omega) enough, behind, answer_none (quiet.scan _)]
  exact congrArg some (List.append_nil _)

theorem Directory.list {fuel : Nat} (sized : d.Sized) (dir : d.Directory chain items) (enough : chain.length ≤ fuel)
    (enough' : items.length < fuel) (rootdirCluster : UInt32) (stale : Nat → Stale) :
    d.listDirectory rootdirCluster fuel stale (chain.getD 0 0) = some (d.filesFrom chain rootdirCluster 0 items) := by
  obtain ⟨tail, slots, stops⟩ := dir.slots
  exact iterateAll_items (p := 0) sized dir.on dir.nonempty dir.valid slots (Nat.zero_le _) stops.quiet enough enough'
    rootdirCluster stale

end Disk
end Kerosene.Fat32
