import Kerosene.Fat32.NodeCreate

/-!
# `fat32_mkdir`

The new cluster is not cleared, so that the searches for `.` and `..` run over what it held before.
-/

namespace Kerosene.Fat32
open Lib Libc
open Ramfs (Name filenameLimit)
open Ramfs.Heap (dot dotdot dots_bytes)
variable {name : Name} {s : Decoder} {slot slot' : List UInt8} {slots tail : List (List UInt8)}

/-! ## The search over the entry of `.` -/

-- The entry of `.` as far as the search reads it.
def dotEntry : FatDirectoryEntry :=
  ⟨Vector.ofFn fun i => (shortName dot true).getD i 0, fatAttrDirectory ||| fatAttrHidden, 0, 0, 0, 0, 0, 0, 0, 0, 0, 0⟩

theorem searchSlot_congr (head : slot.getD 0 0 = slot'.getD 0 0) (attr : slot.getD 11 0 = slot'.getD 11 0)
    (isEntry : slot'.getD 11 0 ≠ 0x0f)
    (named : (FatDirectoryEntry.ofBytes slot).name = (FatDirectoryEntry.ofBytes slot').name) (name : Name) (s : Decoder) :
    searchSlot name s slot = searchSlot name s slot' := by
  have same : s.processSfnEntry (.ofBytes slot) = s.processSfnEntry (.ofBytes slot') := by
    rw [Decoder.processSfnEntry, Decoder.processSfnEntry, named]
  rw [searchSlot, searchSlot, head, attr, if_neg isEntry, if_neg isEntry, same]

theorem lfnEntryCount_dots : lfnEntryCount dot = 0 ∧ lfnEntryCount dotdot = 0 := by
  constructor
  · exact if_pos (.inl rfl)
  · exact if_pos (.inr (.inl rfl))

theorem length_dots : dot.length < filenameLimit ∧ dotdot.length < filenameLimit := by
  rw [dots_bytes.1, dots_bytes.2]
  decide

theorem shortName_dots (isDir : Bool) : shortName dot isDir = [0x2e, 0x20, 0x20, 0x20, 0x20, 0x20, 0x20, 0x20, 0x20, 0x20, 0x20] ∧
    shortName dotdot isDir = [0x2e, 0x2e, 0x20, 0x20, 0x20, 0x20, 0x20, 0x20, 0x20, 0x20, 0x20] := by
  rw [shortName, shortName, if_pos (.inl rfl), if_pos (.inr rfl), dots_bytes.1, dots_bytes.2]
  decide

theorem name_dot {startCluster size : UInt32} {attr : UInt8} {clock : Clock} {reserved : UInt8} {dir : FatDirectoryEntry}
    (written : shortEntry dot startCluster attr size clock reserved = some dir) : dir.name = dotEntry.name := by
  apply Vector.toList_inj.mp
  rw [(shortEntry_name written).1, (shortName_dots _).1]
  decide +kernel

theorem searchSlot_dot {startCluster size : UInt32} {clock : Clock} {reserved : UInt8} {dir : FatDirectoryEntry}
    (written : shortEntry dot startCluster (fatAttrDirectory ||| fatAttrHidden) size clock reserved = some dir) (name : Name)
    (s : Decoder) :
    searchSlot name s dir.bytes = searchSlot name s dotEntry.bytes := by
  obtain ⟨-, attrs, -⟩ := shortEntry_name written
  have named := name_dot written
  refine searchSlot_congr ?_ ?_ ?_ ?_ name s
  · rw [← FatDirectoryEntry.name_ofBytes, ← FatDirectoryEntry.name_ofBytes, dir.ofBytes_bytes, dotEntry.ofBytes_bytes, named]
  · rw [← FatDirectoryEntry.attr_ofBytes, ← FatDirectoryEntry.attr_ofBytes, dir.ofBytes_bytes, dotEntry.ofBytes_bytes, attrs]
    rfl
  · rw [← FatDirectoryEntry.attr_ofBytes, dotEntry.ofBytes_bytes]
    decide
  · rw [dir.ofBytes_bytes, dotEntry.ofBytes_bytes, named]

theorem newSlots_dot (attr : UInt8) (dir : FatDirectoryEntry) : newSlots dot attr dir = [dir.bytes] := by
  rw [newSlots, lfnEntryCount_dots.1]
  rfl

theorem foldlM_stops (stops : Stops tail) : (slots ++ tail).foldlM (searchSlot name) s = .error true ↔
    slots.foldlM (searchSlot name) s = .error true := by
  rw [List.foldlM_append]
  cases slots.foldlM (searchSlot name) s with
  | error found => rfl
  | ok s' =>
      refine ⟨fun found => ?_, fun found => (by cases found)⟩
      cases tail with
      | nil => cases found
      | cons slot tail =>
          change (slot :: tail).foldlM (searchSlot name) s' = .error true at found
          rw [List.foldlM_cons, searchSlot, if_pos (stops slot rfl)] at found
          cases found

theorem Fat.nodup_available (f : Fat) : f.available.Nodup := (List.nodup_range').filter _

namespace Disk
variable {d d₁ d₂ : Disk} {chain left : List Nat} {c fuel : Nat} {startCluster size : UInt32} {attr : UInt8}
  {new dotDir dotdotDir : Scratch}
  {newNode node : FsNode} {clock : Clock} {stack : Int → UInt8} {err : DirErr}

/-! ## The new cluster -/

/-- What is searched for `..`: the old slots of the new cluster in front of the first that was never used, the entry of `.`,
and where that takes the last slot, the old slots of the clusters behind it. -/
def dotSlots (d : Disk) (c : Nat) (left : List Nat) : List (List UInt8) :=
  (d.dirSlots [c]).take (d.firstFree [c]) ++ [dotEntry.bytes] ++
    if d.firstFree [c] + 1 = d.slotsPerCluster then d.dirSlots (left.take (d.growth [c] dot)) else []

/-- The directory `c` is made, and the clusters `left` can still be taken. -/
structure Made (d d₁ : Disk) (c : Nat) (left : List Nat) : Prop where
  volume : d₁.fat.Volume
  own : d₁.DirChain [c]
  used : d₁.fat.InUse c
  available : d₁.fat.available = left
  stays : d.Stays d₁ (c :: left)

theorem made_of_added {g : Fat} (sized : d.Sized) (volume : d.fat.Volume) (inUse : ∀ c ∈ chain, d.fat.InUse c) (nonempty : chain ≠ [])
    (on : d.DirChain chain) (short : name.length < filenameLimit) (allocated : d.fat.fat32AllocateClusters 1 = some (c, g))
    (free : d.fat.available = c :: left)
    (added : (d.withFat g).fat32AddEntry fuel (chain.getD 0 0) name startCluster attr size newNode clock stack =
      some (.success, d₁, node)) :
    d.Made d₁ c (left.drop (d.growth chain name)) := by
  obtain ⟨next, free', -, expands, available, own⟩ := allocate_first volume allocated
  cases free.symm.trans free'
  have ready := ready_allocate volume inUse allocated
  have enters := addEntry_enters (d := d.withFat g) (sized.congr rfl) (expands.volume volume)
      (fun x member => expands.inUse x (inUse x member)) nonempty
    (on.kept ready.entries) short added
  have isFree : ∀ x ∈ c :: left, d.fat.Free x := fun x member => Fat.available_free volume.hint (by rwa [free])
  have distinct := free ▸ Fat.nodup_available d.fat
  have outside : ∀ x ∈ c :: left.drop (d.growth chain name), x ∉ chain ∧ x ∉ left.take (d.growth chain name) := by
    intro x member
    have inside : x ∈ c :: left := by
      rcases List.mem_cons.mp member with rfl | later
      · exact List.mem_cons_self
      · exact List.mem_cons_of_mem c (List.mem_of_mem_drop later)
    refine ⟨fun old => (inUse x old).notFree' (isFree x inside), fun taken => ?_⟩
    rcases List.mem_cons.mp member with rfl | later
    · exact (List.nodup_cons.mp distinct).1 (List.mem_of_mem_take taken)
    · exact List.disjoint_take_drop (List.nodup_cons.mp distinct).2 le_rfl taken later
  have taken : (d.withFat g).fat.available.take ((d.withFat g).growth chain name) = left.take (d.growth chain name) :=
    congrArg (List.take (d.growth chain name)) available
  have first := outside c List.mem_cons_self
  refine ⟨enters.fat.volume (expands.volume volume), own.kept fun x only => ?_, ?_, ?_, enters.sectors, fun x member => ?_⟩
  · rw [List.mem_singleton.mp only]
    exact enters.fat.same c first.1 (by rw [taken]; exact first.2)
  · refine enters.fat.inUse c (expands.taken c ?_)
    rw [free]
    exact List.mem_cons_self
  · exact enters.fat.available.trans (congrArg (List.drop (d.growth chain name)) available)
  · obtain ⟨notOld, notTaken⟩ := outside x member
    refine enters.data x (fun grown => ?_) ?_
    · rcases mem_grownChain_take grown with old | took
      · exact notOld old
      · rw [taken] at took
        exact notTaken took
    · refine volume.belowEoc (isFree x ?_).data
      rcases List.mem_cons.mp member with rfl | later
      · exact List.mem_cons_self
      · exact List.mem_cons_of_mem c (List.mem_of_mem_drop later)

/-- The clusters that the new directory takes for `..`. -/
def dotdotGrowth (d : Disk) (c : Nat) (left : List Nat) : Nat :=
  let p := ((d.dotSlots c left).takeWhile fun slot => slot.getD 0 0 ≠ 0x00).length
  let count := d.newClusterCount (lfnEntryCount dotdot) (32 * (p % d.slotsPerCluster))
  if p = d.slotsPerCluster * (1 + d.growth [c] dot) then 1 + count else count

theorem length_grownChain_singleton (room : d.growth [c] name ≤ d.fat.available.length) :
    (d.grownChain [c] name).length = 1 + d.growth [c] name := by
  have inside := d.firstFree_le [c]
  rw [List.length_singleton, Nat.mul_one] at inside
  rw [grownChain]
  rw [growth] at room ⊢
  rw [List.length_singleton, Nat.mul_one] at room ⊢
  split_ifs at room ⊢ with full none
  · rw [List.length_append, List.length_singleton, List.length_take, Nat.min_eq_left room]
  · rw [none]
    rfl
  · have row : d.firstFree [c] / d.slotsPerCluster = 0 := Nat.div_eq_of_lt (by omega)
    rw [row, List.length_append, List.length_take, List.length_take, Nat.min_eq_left room]
    rfl

/-- The new directory, in the clusters `chain'`, when `.` was added. -/
structure Dotted (d d₂ : Disk) (c : Nat) (left chain' : List Nat) : Prop where
  volume : d₂.fat.Volume
  on : d₂.DirChain chain'
  inUse : ∀ x ∈ chain', d₂.fat.InUse x
  nonempty : chain' ≠ []
  head : chain'.getD 0 0 = c
  length : chain'.length = 1 + d.growth [c] dot
  available : d₂.fat.available = left.drop (d.growth [c] dot)
  sectors : d₂.sectorsPerCluster = d.sectorsPerCluster
  growth : d₂.growth chain' dotdot = d.dotdotGrowth c left
  finds : ∀ stack, d₂.Finds chain' dotdot stack ↔ (d.dotSlots c left).foldlM (searchSlot dotdot) (.start stack) = .error true

section
variable (sized : d.Sized) (made : d.Made d₁ c left)
include sized made

omit sized in
theorem Made.first : d.Stays d₁ [c] :=
  ⟨made.stays.sectors, fun x only => made.stays.data x (by rw [List.mem_singleton.mp only]; exact List.mem_cons_self)⟩

omit sized in
theorem Made.grownChain_full (last : d.firstFree [c] + 1 = d.slotsPerCluster) :
    d₁.grownChain [c] dot = c :: left.take (d.growth [c] dot) := by
  have first := made.first
  have place : d₁.firstFree [c] + 1 = d₁.slotsPerCluster := by rw [first.firstFree, first.perCluster, last]
  have notFull : d₁.firstFree [c] ≠ d₁.slotsPerCluster * [c].length := by
    rw [List.length_singleton, Nat.mul_one]
    omega
  have row : d₁.firstFree [c] / d₁.slotsPerCluster = 0 := Nat.div_eq_of_lt (by omega)
  rw [← first.growth, growth, if_neg notFull, grownChain, if_neg notFull, made.available, row]
  split_ifs with none
  · rw [none]
    rfl
  · rfl

theorem Made.holds (added : d₁.fat32AddEntry fuel c dot startCluster (fatAttrDirectory ||| fatAttrHidden) size newNode clock stack =
    some (.success, d₂, node)) : ∃ dir reserved tail,
      shortEntry dot startCluster (fatAttrDirectory ||| fatAttrHidden) size clock reserved = some dir ∧
      d₂.DirChain (d₁.grownChain [c] dot) ∧
      d₂.dirSlots (d₁.grownChain [c] dot) = (d.dirSlots [c]).take (d.firstFree [c]) ++ [dir.bytes] ++ tail ∧
      if d.firstFree [c] + 1 = d.slotsPerCluster then tail = d.dirSlots (left.take (d.growth [c] dot)) else Stops tail := by
  have first := made.first
  have sized' := sized.congr first.sectors
  have slots := sized'.slots
  have used : ∀ x ∈ [c], d₁.fat.InUse x := fun x only => List.mem_singleton.mp only ▸ made.used
  have enters := addEntry_enters sized' made.volume used (List.cons_ne_nil c []) made.own length_dots.1 added
  have fits := firstFree_lt_grownChain (d := d₁) (by omega) enters.fat.enough
  obtain ⟨dir, reserved, written, all⟩ := addEntry_added (by omega) made.volume used (List.cons_ne_nil c []) made.own added
    (by rw [lfnEntryCount_dots.1]; exact fits)
  obtain ⟨tail, slots', behind⟩ := all.slots
  rw [newSlots_dot] at slots' behind
  rw [first.slots, first.firstFree] at slots'
  refine ⟨dir, reserved, tail, written, all.on, slots', ?_⟩
  have before := d₁.firstFree_le [c]
  rw [List.length_singleton, Nat.mul_one] at before
  by_cases last : d.firstFree [c] + 1 = d.slotsPerCluster
  · have aligned : (d₁.firstFree [c] + 1) % d₁.slotsPerCluster = 0 := by
      rw [first.firstFree, first.perCluster, last, Nat.mod_self]
    rw [if_pos last]
    rw [Behind, List.length_singleton, if_pos aligned, made.grownChain_full last, first.firstFree, last, dirSlots_cons,
      ← first.perCluster, List.drop_left' (length_clusterSlots d₁ c)] at behind
    rw [behind]
    exact dirSlots_congr (fun x member => made.stays.data x (List.mem_cons_of_mem c (List.mem_of_mem_take member))) first.sectors
  · rw [if_neg last]
    rw [Behind, List.length_singleton, if_neg] at behind
    · exact behind
    · intro aligned
      obtain ⟨q, times⟩ := Nat.dvd_of_mod_eq_zero aligned
      have place := first.firstFree
      have perCluster := first.perCluster
      rcases q with _ | _ | q
      · omega
      · omega
      · have := Nat.mul_le_mul_left d₁.slotsPerCluster (show 2 ≤ q + 1 + 1 by omega)
        omega

theorem Made.dotted (added : d₁.fat32AddEntry fuel c dot startCluster (fatAttrDirectory ||| fatAttrHidden) size newNode clock stack =
    some (.success, d₂, node)) : d.Dotted d₂ c left (d₁.grownChain [c] dot) := by
  have first := made.first
  have sized' := sized.congr first.sectors
  have slots := sized'.slots
  have used : ∀ x ∈ [c], d₁.fat.InUse x := fun x only => List.mem_singleton.mp only ▸ made.used
  have enters := addEntry_enters sized' made.volume used (List.cons_ne_nil c []) made.own length_dots.1 added
  have length := length_grownChain_singleton enters.fat.enough
  rw [first.growth] at length
  have sectors := enters.sectors.trans first.sectors
  have perCluster : d₂.slotsPerCluster = d.slotsPerCluster := by rw [slotsPerCluster_eq, slotsPerCluster_eq, sectors]
  obtain ⟨dir, reserved, tail, written, on, slots', behind⟩ := made.holds sized added
  have before := d.used_take_firstFree [c]
  have head : dir.bytes.getD 0 0 ≠ 0x00 := by
    rw [← FatDirectoryEntry.name_ofBytes, dir.ofBytes_bytes, name_dot written]
    decide +kernel
  refine ⟨enters.fat.volume made.volume, on, fun x member => ?_, ?_, grownChain_head (List.cons_ne_nil c []), length, ?_, sectors, ?_,
    fun stack => ?_⟩
  · rcases mem_grownChain_take member with old | took
    · exact enters.fat.inUse x (used x old)
    · exact enters.fat.taken x took
  · exact List.ne_nil_of_length_pos (by omega)
  · rw [enters.fat.available, made.available, first.growth]
  · have place : d₂.firstFree (d₁.grownChain [c] dot) = ((d.dotSlots c left).takeWhile fun slot => slot.getD 0 0 ≠ 0x00).length := by
      rw [firstFree, slots', dotSlots, length_takeWhile_used (before.append (List.forall_mem_singleton.mpr head)),
        length_takeWhile_used (before.append (List.forall_mem_singleton.mpr (by decide +kernel))), List.length_append, List.length_append]
      split_ifs at behind ⊢
      · rw [behind]
        rfl
      · have none := takeWhile_used (List.forall_mem_nil _) behind
        rw [List.nil_append] at none
        rw [none]
        rfl
    rw [growth, dotdotGrowth, place, perCluster, length, newClusterCount, newClusterCount, estimatedNewClusterCount,
      estimatedNewClusterCount, clusterSize, clusterSize, sectors]
  · have same : ∀ name s (rest : List (List UInt8)),
      ((d.dirSlots [c]).take (d.firstFree [c]) ++ [dir.bytes] ++ rest).foldlM (searchSlot name) s =
        ((d.dirSlots [c]).take (d.firstFree [c]) ++ [dotEntry.bytes] ++ rest).foldlM (searchSlot name) s := by
      intro name s rest
      simp only [List.foldlM_append, List.foldlM_cons, searchSlot_dot written]
    rw [Finds, slots', same, dotSlots]
    split_ifs at behind ⊢
    · rw [behind]
    · rw [List.append_nil]
      exact foldlM_stops behind

end

/-! ## The three calls -/

/-- Where a call of `fat32_mkdir` returns an error: the name is found, or there is room for it and `.` is found in the new
cluster `c`, or there is room for both and `..` is found. -/
def MkdirFailsAt (d : Disk) (chain : List Nat) (name : Name) (new dotDir dotdotDir : Scratch) (c : Nat) (next : List Nat) : Prop :=
  d.Finds chain name new.entryName ∨ d.growth chain name ≤ next.length ∧
    (d.Finds [c] dot dotDir.entryName ∨ d.growth [c] dot ≤ (next.drop (d.growth chain name)).length ∧
      (d.dotSlots c (next.drop (d.growth chain name))).foldlM (searchSlot dotdot) (.start dotdotDir.entryName) = .error true)

def MkdirFails (d : Disk) (chain : List Nat) (name : Name) (new dotDir dotdotDir : Scratch) : Prop :=
  ∃ c next, d.fat.available = c :: next ∧ d.MkdirFailsAt chain name new dotDir dotdotDir c next

/-- Behind the new cluster `c` there are words for what the directory and the new one grow by. -/
structure MkdirRoomAt (d : Disk) (chain : List Nat) (name : Name) (c : Nat) (next : List Nat) : Prop where
  entry : d.growth chain name ≤ next.length
  own : d.growth [c] dot ≤ (next.drop (d.growth chain name)).length
  parent : d.dotdotGrowth c (next.drop (d.growth chain name)) ≤ ((next.drop (d.growth chain name)).drop (d.growth [c] dot)).length

/-- None of the three names is found, and there are words for all. -/
def MkdirAccepts (d : Disk) (chain : List Nat) (name : Name) (new dotDir dotdotDir : Scratch) : Prop :=
  ∃ c next, d.fat.available = c :: next ∧ ¬ d.MkdirFailsAt chain name new dotDir dotdotDir c next ∧ d.MkdirRoomAt chain name c next

theorem mkdir_eq {g : Fat} {flags : BitVec 32} {parent : Nat} (nonzero : c ≠ 0)
    (allocated : d.fat.fat32AllocateClusters 1 = some (c, g)) :
    d.fat32Mkdir fuel parent name flags new dotDir dotdotDir =
      ((d.withFat g).fat32AddEntry fuel parent name (.ofNat c) (toFatAttr flags ||| fatAttrDirectory) 0 { new.node with flags := 0 }
        new.clock new.entryName).bind fun r₁ => if r₁.1 ≠ .success then some r₁ else
          (r₁.2.1.fat32AddEntry fuel r₁.2.2.startCluster.toNat dot (.ofNat c) (fatAttrDirectory ||| fatAttrHidden) 0 dotDir.node
            dotDir.clock dotDir.entryName).bind fun r₂ => if r₂.1 ≠ .success then some (r₂.1, r₂.2.1, r₁.2.2) else
              (r₂.2.1.fat32AddEntry fuel r₁.2.2.startCluster.toNat dotdot (.ofNat parent) (fatAttrDirectory ||| fatAttrHidden) 0
                dotdotDir.node dotdotDir.clock dotdotDir.entryName).bind fun r₃ =>
                  if r₃.1 ≠ .success then some (r₃.1, r₃.2.1, r₁.2.2) else some (.success, r₃.2.1, r₁.2.2) := by
  rw [fat32Mkdir, allocated]
  change (if c = 0 then _ else _) = _
  rw [if_neg nonzero]
  rfl

theorem mkdir_more {fuel' parent : Nat} {flags : BitVec 32} {r : DirErr × Disk × FsNode} (more : fuel ≤ fuel')
    (volume : d.fat.Volume) (done : d.fat32Mkdir fuel parent name flags new dotDir dotdotDir = some r) :
    d.fat32Mkdir fuel' parent name flags new dotDir dotdotDir = some r := by
  obtain ⟨⟨c, g⟩, allocated, -⟩ := Option.bind_eq_some_iff.mp done
  obtain ⟨next, free, nonzero, -⟩ := allocate_first volume allocated
  rw [mkdir_eq nonzero allocated] at done ⊢
  obtain ⟨r₁, first, done⟩ := Option.bind_eq_some_iff.mp done
  refine Option.bind_eq_some_iff.mpr ⟨r₁, addEntry_more more first, ?_⟩
  split_ifs at done ⊢
  · exact done
  · obtain ⟨r₂, second, done⟩ := Option.bind_eq_some_iff.mp done
    refine Option.bind_eq_some_iff.mpr ⟨r₂, addEntry_more more second, ?_⟩
    split_ifs at done ⊢
    · exact done
    · obtain ⟨r₃, third, done⟩ := Option.bind_eq_some_iff.mp done
      exact Option.bind_eq_some_iff.mpr ⟨r₃, addEntry_more more third, done⟩

section
variable {next : List Nat} (sized : d.Sized) (volume : d.fat.Volume) (inUse : ∀ c ∈ chain, d.fat.InUse c) (nonempty : chain ≠ [])
  (on : d.DirChain chain) (short : name.length < filenameLimit)
include sized volume inUse nonempty on short

/-- With enough rounds, the call fails just there, and the new cluster is taken then. Elsewhere it succeeds where there is room. -/
theorem mkdir_outcome (free : d.fat.available = c :: next) (enough : chain.length + d.growth [c] dot + 2 ≤ fuel) (flags : BitVec 32)
    (new dotDir dotdotDir : Scratch) :
    (d.MkdirFailsAt chain name new dotDir dotdotDir c next ∧ ∃ d' node,
      d.fat32Mkdir fuel (chain.getD 0 0) name flags new dotDir dotdotDir = some (.entryExisted, d', node) ∧ d'.fat.InUse c) ∨
      (¬ d.MkdirFailsAt chain name new dotDir dotdotDir c next ∧
        (∀ err d' node, d.fat32Mkdir fuel (chain.getD 0 0) name flags new dotDir dotdotDir = some (err, d', node) → err = .success) ∧
        (d.MkdirRoomAt chain name c next → ∃ d' node,
          d.fat32Mkdir fuel (chain.getD 0 0) name flags new dotDir dotdotDir = some (.success, d', node))) := by
  obtain ⟨c', g, allocated, nonzero⟩ := allocate_ends volume (by rw [free]; exact List.cons_ne_nil c next)
  obtain ⟨next', free', -, expands, available, -⟩ := allocate_first volume allocated
  cases free.symm.trans free'
  have ready := ready_allocate volume inUse allocated
  have number : (UInt32.ofNat c).toNat = c := by
    have below := volume.below (Fat.available_free (c := c) volume.hint (by rw [free]; exact List.mem_cons_self)).data
    simp only [fatBadCluster] at below
    exact UInt32.toNat_ofNat_of_lt' (show c < 2 ^ 32 by omega)
  have used : g.InUse c := expands.taken c (by rw [free]; exact List.mem_cons_self)
  have left : (d.withFat g).fat.available.length = next.length := congrArg List.length available
  rw [mkdir_eq nonzero allocated, MkdirFailsAt]
  rcases addEntry_outcome (d := d.withFat g) (sized.congr rfl) (expands.volume volume) (fun x member => expands.inUse x (inUse x member))
    nonempty (on.kept ready.entries) short (show chain.length < fuel by omega) new.entryName (.ofNat c)
      (toFatAttr flags ||| fatAttrDirectory) 0
    { new.node with flags := 0 } new.clock with ⟨finds, first⟩ | ⟨absent, room, d₁, node, first⟩ | ⟨absent, full, first⟩
  · refine .inl ⟨.inl (ready.stays.finds.mp finds), d.withFat g, { new.node with flags := 0 }, ?_, used⟩
    rw [first]
    rfl
  · have made := made_of_added sized volume inUse nonempty on short allocated free first
    have start : node.startCluster.toNat = c := by rw [(addEntry_node first).2.2.2, number]
    have own : ∀ x ∈ [c], d₁.fat.InUse x := fun x only => List.mem_singleton.mp only ▸ made.used
    have absent' : ¬ d.Finds chain name new.entryName := mt ready.stays.finds.mpr absent
    have room' : d.growth chain name ≤ next.length := by
      rw [← ready.stays.growth, ← left]
      exact room
    have left' : d₁.fat.available.length = (next.drop (d.growth chain name)).length := congrArg List.length made.available
    rw [first, Option.bind_some, if_neg (not_not.mpr rfl)]
    dsimp only
    rw [start, or_iff_right absent', and_iff_right room']
    rcases addEntry_outcome (sized.congr made.stays.sectors) made.volume own (List.cons_ne_nil c []) made.own length_dots.1
      (show 1 < fuel by omega) dotDir.entryName (.ofNat c) (fatAttrDirectory ||| fatAttrHidden) 0 dotDir.node dotDir.clock with
      ⟨finds, second⟩ | ⟨absent, room, d₂, node₂, second⟩ | ⟨absent, full, second⟩
    · refine .inl ⟨.inl (made.first.finds.mp finds), d₁, node, ?_, made.used⟩
      rw [show d₁.fat32AddEntry fuel c dot _ _ _ _ _ _ = _ from second]
      rfl
    · have dotted := made.dotted sized second
      have enters := addEntry_enters (sized.congr made.stays.sectors) made.volume own (List.cons_ne_nil c []) made.own
        length_dots.1 second
      have used' := enters.fat.inUse c made.used
      have room' : d.growth [c] dot ≤ (next.drop (d.growth chain name)).length := by
        rw [← made.first.growth, ← left']
        exact room
      rw [show d₁.fat32AddEntry fuel c dot _ _ _ _ _ _ = _ from second, Option.bind_some, if_neg (not_not.mpr rfl),
        or_iff_right (mt made.first.finds.mpr absent), and_iff_right room', ← dotted.finds]
      dsimp only
      have length := dotted.length
      have third := addEntry_outcome (sized.congr dotted.sectors) dotted.volume dotted.inUse dotted.nonempty dotted.on length_dots.2
        (show (d₁.grownChain [c] dot).length < fuel by omega) dotdotDir.entryName (.ofNat (chain.getD 0 0))
        (fatAttrDirectory ||| fatAttrHidden) 0 dotdotDir.node dotdotDir.clock
      rw [dotted.head] at third
      rcases third with ⟨finds, third⟩ | ⟨absent, -, d₃, node₃, third⟩ | ⟨absent, full, third⟩
      · refine .inl ⟨finds, d₂, node, ?_, used'⟩
        rw [third]
        rfl
      · rw [third]
        refine .inr ⟨absent, fun err d' node' done => ?_, fun _ => ⟨d₃, node, rfl⟩⟩
        cases done
        rfl
      · rw [third]
        refine .inr ⟨absent, fun err d' node' done => (by cases done), fun room => ?_⟩
        rw [dotted.growth, dotted.available] at full
        exact absurd room.parent full
    · rw [left', made.first.growth] at full
      rw [show d₁.fat32AddEntry fuel c dot _ _ _ _ _ _ = _ from second]
      refine .inr ⟨?_, fun err d' node done => (by cases done), fun room => absurd room.own full⟩
      rintro (finds | ⟨room, -⟩)
      · exact absent (made.first.finds.mpr finds)
      · exact full room
  · rw [left, ready.stays.growth] at full
    rw [first]
    refine .inr ⟨?_, fun err d' node done => (by cases done), fun room => absurd room.entry full⟩
    rintro (finds | ⟨room, -⟩)
    · exact absent (ready.stays.finds.mpr finds)
    · exact full room

theorem mkdir_allOrNothing_iff (flags : BitVec 32) (new dotDir dotdotDir : Scratch) :
    d.AllOrNothing (chain.getD 0 0) (fun fuel => d.fat32Mkdir fuel (chain.getD 0 0) name flags new dotDir dotdotDir) ↔
      ¬ d.MkdirFails chain name new dotDir dotdotDir := by
  have fails : ∀ {fuel err d' node}, d.fat32Mkdir fuel (chain.getD 0 0) name flags new dotDir dotdotDir = some (err, d', node) →
      err ≠ .success → ∃ c next, d.fat.available = c :: next ∧ d.MkdirFailsAt chain name new dotDir dotdotDir c next ∧
      d'.fat.InUse c := by
    intro fuel err d' node done failed
    obtain ⟨⟨c, g⟩, allocated, -⟩ := Option.bind_eq_some_iff.mp done
    obtain ⟨next, free, -⟩ := allocate_first volume allocated
    have more := mkdir_more (Nat.le_add_right fuel (chain.length + d.growth [c] dot + 2)) volume done
    rcases mkdir_outcome sized volume inUse nonempty on short free (Nat.le_add_left _ fuel) flags new dotDir dotdotDir with
      ⟨at_, d'', node', found, used⟩ | ⟨-, success, -⟩
    · cases more.symm.trans found
      exact ⟨c, next, free, at_, used⟩
    · exact absurd (success err d' node more) failed
  rw [allOrNothing_iff]
  · constructor
    · rintro never ⟨c, next, free, at_⟩
      rcases mkdir_outcome sized volume inUse nonempty on short free le_rfl flags new dotDir dotdotDir with
        ⟨-, d', node, found, -⟩ | ⟨success, -⟩
      · cases never _ _ _ _ found
      · exact success at_
    · intro none fuel err d' node done
      by_contra failed
      obtain ⟨c, next, free, at_, -⟩ := fails done failed
      exact none ⟨c, next, free, at_⟩
  · intro fuel err d' node done failed
    obtain ⟨c, next, free, -, used⟩ := fails done failed
    exact ⟨c, Fat.available_free volume.hint (by rw [free]; exact List.mem_cons_self), used⟩

theorem mkdir_succeeds (flags : BitVec 32) (accepts : d.MkdirAccepts chain name new dotDir dotdotDir) : ∃ fuel d' node,
    d.fat32Mkdir fuel (chain.getD 0 0) name flags new dotDir dotdotDir = some (.success, d', node) := by
  obtain ⟨c, next, free, allowed, room⟩ := accepts
  rcases mkdir_outcome sized volume inUse nonempty on short free le_rfl flags new dotDir dotdotDir with ⟨at_, -⟩ | ⟨-, -, success⟩
  · exact absurd at_ allowed
  · exact ⟨_, success room⟩

end

/-- All bytes of the cluster are zero. -/
def Zero (d : Disk) (c : Nat) : Prop := ∀ i < d.clusterSize, d.data c i = 0

theorem Zero.stops (sized : d.Sized) (zero : d.Zero c) : Stops (d.dirSlots [c]) := by
  have slots := sized.slots
  have size := d.clusterSize_eq
  intro slot head
  obtain ⟨n, some⟩ := Nat.exists_eq_add_one.mpr (show 0 < d.slotsPerCluster by omega)
  rw [dirSlots_cons, clusterSlots, some, slotsFrom_succ, List.cons_append, List.head?_cons] at head
  cases head
  rw [slotAt_getD (by decide)]
  exact zero _ (by omega)

theorem Directory.finds_iff {items : List Item} (dir : d.Directory chain items) :
    d.Finds chain name stack ↔ Hit stack items name := by
  obtain ⟨tail, slots, stops⟩ := dir.slots
  rw [Finds, slots]
  exact search_items dir.valid name tail stops rfl rfl

def blankScratch : Scratch := ⟨blankNode, ⟨0, 0⟩, fun _ => 0⟩

end Disk

end Kerosene.Fat32
