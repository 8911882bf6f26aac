import Kerosene.Fat32.BeyondVolume

/-!
# `fat32_node_create`, `fat32_mkdir` and `fat32_node_copy`

A search for a free cluster that leaves the table has no result; on `d.beyond` it goes on behind the volume. The `clear` of
`fat32_mkdir` is left out, as in `fat32_add_entry`.
-/

namespace Kerosene.Fat32
open Lib Libc
open Ramfs (Name filenameLimit)
open Ramfs.Heap (dot dotdot)

-- What a call of `fat32_add_entry` starts from: the node that it fills, the time, and what `entry_name` holds.
structure Scratch where
  node : FsNode
  clock : Clock
  entryName : Int → UInt8

namespace Disk

-- The loop of `copy_cluster_chain`, `none` when the chain does not end within `fuel` rounds.
def copyLoop : (fuel : Nat) → Disk → (current copiedCurrent : Nat) → Option Disk
  | 0, _, _, _ => none
  | fuel + 1, d, current, copiedCurrent =>
      let d := d.setData copiedCurrent (d.data current)
      let next := d.fat.getFatEntry current
      if next ≥ fatEoc ∨ next = fatBadCluster then some d
      else
        match d.expandChain copiedCurrent 1 with
        | none => none
        | some (copiedNext, d) => copyLoop fuel d next copiedNext

def copyClusterChain (d : Disk) (fuel startCluster : Nat) : Option (Nat × Disk) := do
  let (copiedStart, fat) ← d.fat.fat32AllocateClusters 1
  let d := d.withFat fat
  if copiedStart = 0 then return (0, d)
  let d ← copyLoop fuel d startCluster copiedStart
  return (copiedStart, d)

def fat32NodeCreate (d : Disk) (fuel parent : Nat) (name : Name) (flags : BitVec 32) (new : Scratch) :
    Option (DirErr × Disk × FsNode) := do
  let (fileCluster, fat) ← d.fat.fat32AllocateClusters 1
  let d := d.withFat fat
  if fileCluster = 0 then return (.notEnoughSpace, d, new.node)
  d.fat32AddEntry fuel parent name (.ofNat fileCluster) (toFatAttr flags) 0 new.node new.clock new.entryName

def fat32NodeCopy (d : Disk) (fuel : Nat) (node : FsNode) (newParent : Nat) (newName : Name) (copied : Scratch) :
    Option (DirErr × Disk × FsNode) := do
  let (startCluster, d) ← d.copyClusterChain fuel node.startCluster.toNat
  if startCluster = 0 then return (.notEnoughSpace, d, copied.node)
  d.fat32AddEntry fuel newParent newName (.ofNat startCluster) (toFatAttr node.flags) node.size copied.node copied.clock copied.entryName

def fat32Mkdir (d : Disk) (fuel parent : Nat) (name : Name) (flags : BitVec 32) (new dotDir dotdotDir : Scratch) :
    Option (DirErr × Disk × FsNode) := do
  let attr := toFatAttr flags
  let newNode := { new.node with flags := 0 }
  let (startCluster, fat) ← d.fat.fat32AllocateClusters 1
  let d := d.withFat fat
  if startCluster = 0 then return (.notEnoughSpace, d, newNode)
  let (addEntryErr, d, newNode) ← d.fat32AddEntry fuel parent name (.ofNat startCluster) (attr ||| fatAttrDirectory) 0 newNode
    new.clock new.entryName
  if addEntryErr ≠ .success then return (addEntryErr, d, newNode)
  let (dotdirErr, d, _) ← d.fat32AddEntry fuel newNode.startCluster.toNat dot (.ofNat startCluster)
    (fatAttrDirectory ||| fatAttrHidden) 0 dotDir.node dotDir.clock dotDir.entryName
  if dotdirErr ≠ .success then return (dotdirErr, d, newNode)
  let (dotdotdirErr, d, _) ← d.fat32AddEntry fuel newNode.startCluster.toNat dotdot (.ofNat parent)
    (fatAttrDirectory ||| fatAttrHidden) 0 dotdotDir.node dotdotDir.clock dotdotDir.entryName
  if dotdotdirErr ≠ .success then return (dotdotdirErr, d, newNode)
  return (.success, d, newNode)

/-- The FAT, the number of free clusters and the listing of the directory are as they were. -/
structure SameVolume (d d' : Disk) (parent : Nat) : Prop where
  entry : d'.fat.entry = d.fat.entry
  free : d'.fat.freeClusterCount = d.fat.freeClusterCount
  listing : ∀ rootdirCluster fuel stale,
    d'.listDirectory rootdirCluster fuel stale parent = d.listDirectory rootdirCluster fuel stale parent

/-- A call that returns an error leaves all as it was. -/
def AllOrNothing (d : Disk) (parent : Nat) (call : (fuel : Nat) → Option (DirErr × Disk × FsNode)) : Prop :=
  ∀ fuel err d' node, call fuel = some (err, d', node) → err ≠ .success → d.SameVolume d' parent

/-- Where it is accepted the call succeeds, and where it fails something stays changed. -/
structure Decided (d : Disk) (parent : Nat) (call : (fuel : Nat) → Option (DirErr × Disk × FsNode)) (accepted fails : Prop) : Prop where
  succeeds : accepted → ∃ fuel d' node, call fuel = some (.success, d', node)
  allOrNothing : accepted → d.AllOrNothing parent call
  breaks : fails → ¬ d.AllOrNothing parent call

/-- The name is new, and there are words for `n` clusters and for those that the directory grows by. -/
structure Accepts (d : Disk) (n : Nat) (chain : List Nat) (name : Name) (stack : Int → UInt8) : Prop where
  absent : ¬ d.Finds chain name stack
  room : n + d.growth chain name ≤ d.fat.available.length

/-- There are words for `n` clusters, and then the name is found. -/
structure Clashes (d : Disk) (n : Nat) (chain : List Nat) (name : Name) (stack : Int → UInt8) : Prop where
  taken : n ≤ d.fat.available.length
  finds : d.Finds chain name stack

variable {d d' : Disk} {parent fuel : Nat} {chain source : List Nat} {name : Name} {flags : BitVec 32} {new : Scratch} {err : DirErr}
  {node copied' : FsNode} {call : Nat → Option (DirErr × Disk × FsNode)}

theorem allOrNothing_iff (taken : ∀ {fuel err d' node}, call fuel = some (err, d', node) → err ≠ .success →
    ∃ c, d.fat.Free c ∧ d'.fat.InUse c) :
    d.AllOrNothing parent call ↔ ∀ fuel err d' node, call fuel = some (err, d', node) → err = .success := by
  constructor
  · intro nothing fuel err d' node done
    by_contra failed
    obtain ⟨c, free, used⟩ := taken done failed
    have same := (nothing fuel err d' node done failed).entry
    exact used.notFree ((Fat.getFatEntry_congr (congrFun same c)).trans free.entry)
  · intro never fuel err d' node done failed
    exact absurd (never fuel err d' node done) failed

theorem AllOrNothing.of_beyond (nothing : d.beyond.AllOrNothing parent call) : d.AllOrNothing parent call := by
  intro fuel err d' node done failed
  obtain ⟨entry, free, listing⟩ := nothing fuel err d' node done failed
  exact ⟨entry, free, d.listDirectory_beyond ▸ listing⟩

theorem AllOrNothing.beyond (nothing : d.AllOrNothing parent call) : d.beyond.AllOrNothing parent call := by
  intro fuel err d' node done failed
  obtain ⟨entry, free, listing⟩ := nothing fuel err d' node done failed
  exact ⟨entry, free, d.listDirectory_beyond.symm ▸ listing⟩

/-! ## The first cluster -/

theorem allocate_first {start : Nat} {g : Fat} (volume : d.fat.Volume) (done : d.fat.fat32AllocateClusters 1 = some (start, g)) :
    ∃ next, d.fat.available = start :: next ∧ start ≠ 0 ∧ d.fat.Expands g [] 1 ∧ g.available = next ∧ (d.withFat g).DirChain [start] := by
  obtain ⟨expands, head, takes⟩ := Fat.allocate_expands volume le_rfl done
  cases free : d.fat.available with
  | nil =>
      rw [free] at head
      cases head
  | cons c next =>
      rw [free] at head takes
      cases head
      have data := (takes.free start List.mem_cons_self).data
      refine ⟨next, rfl, ?_, expands, ?_, .singleton start, ?_, List.nodup_singleton start⟩
      · have := data.1
        omega
      · rw [expands.available, free]
        rfl
      · rintro _ ⟨⟩
        obtain ⟨hint, -, same⟩ := takes.laid
        have entry : g.getFatEntry start = fatEoc := by
          rw [same]
          exact Fat.getFatEntry_set_self d.fat start (by decide)
        exact entry.ge

/-! ## Clusters taken before the entry is added -/

/-- Free clusters were taken, and the directory is as it was. -/
structure Ready (d d₁ : Disk) (chain : List Nat) (n : Nat) : Prop where
  expands : d.fat.Expands d₁.fat [] n
  pos : 1 ≤ n
  entries : ∀ c ∈ chain, d₁.fat.entry c = d.fat.entry c
  stays : d.Stays d₁ chain

variable {d₁ : Disk} {n start : Nat} {g : Fat} {startCluster size : UInt32} {attr : UInt8} {newNode : FsNode} {clock : Clock}
  {stack : Int → UInt8}

theorem ready_of_expands (volume : d.fat.Volume) (inUse : ∀ c ∈ chain, d.fat.InUse c) (expands : d.fat.Expands d₁.fat [] n)
    (pos : 1 ≤ n) (sectors : d₁.sectorsPerCluster = d.sectorsPerCluster)
    (data : ∀ x, x ∉ d.fat.available.take n → d₁.data x = d.data x) : d.Ready d₁ chain n := by
  have outside : ∀ c ∈ chain, c ∉ d.fat.available.take n := fun c member took =>
    (inUse c member).notFree' (Fat.available_free volume.hint (List.mem_of_mem_take took))
  exact ⟨expands, pos, fun c member => expands.same c List.not_mem_nil (outside c member), sectors,
    fun c member => data c (outside c member)⟩

section
variable (sized : d.Sized) (volume : d.fat.Volume) (inUse : ∀ c ∈ chain, d.fat.InUse c) (nonempty : chain ≠ [])
  (on : d.DirChain chain) (ready : d.Ready d₁ chain n)
include sized volume inUse nonempty on ready

theorem Ready.failed (failed : err ≠ .success)
    (added : d₁.fat32AddEntry fuel (chain.getD 0 0) name startCluster attr size newNode clock stack = some (err, d', node)) :
    d.Finds chain name stack ∧ ∃ c, d.fat.Free c ∧ d'.fat.InUse c := by
  have stays := ready.stays
  obtain ⟨finds, -, rfl⟩ := addEntry_failed (sized.congr stays.sectors) (ready.expands.volume volume)
    (fun c member => ready.expands.inUse c (inUse c member)) nonempty (on.kept ready.entries) failed added
  refine ⟨stays.finds.mp finds, ?_⟩
  have pos := ready.pos
  have enough := ready.expands.enough
  obtain ⟨c, took⟩ := List.exists_mem_of_length_pos (l := d.fat.available.take n) (by rw [List.length_take]; omega)
  exact ⟨c, Fat.available_free volume.hint (List.mem_of_mem_take took), ready.expands.taken c took⟩

omit volume inUse in
theorem Ready.finds (enough : chain.length < fuel) (finds : d.Finds chain name stack) (startCluster : UInt32) (attr : UInt8)
    (size : UInt32) (newNode : FsNode) (clock : Clock) :
    d₁.fat32AddEntry fuel (chain.getD 0 0) name startCluster attr size newNode clock stack =
      some (.entryExisted, d₁, { newNode with flags := 0 }) :=
  addEntry_finds (sized.congr ready.stays.sectors) nonempty (on.kept ready.entries) enough (ready.stays.finds.mpr finds)
    startCluster attr size newNode clock

theorem Ready.succeeds (enough : chain.length < fuel) (accepts : d.Accepts n chain name stack) (startCluster : UInt32) (attr : UInt8)
    (size : UInt32) (newNode : FsNode) (clock : Clock) : ∃ d' node,
      d₁.fat32AddEntry fuel (chain.getD 0 0) name startCluster attr size newNode clock stack = some (.success, d', node) := by
  have room := accepts.room
  refine addEntry_succeeds (sized.congr ready.stays.sectors) (ready.expands.volume volume)
    (fun c member => ready.expands.inUse c (inUse c member)) nonempty (on.kept ready.entries) enough
    (mt ready.stays.finds.mp accepts.absent) ?_ startCluster attr size newNode clock
  rw [ready.stays.growth, ready.expands.available, List.length_drop]
  omega

end

theorem ready_allocate (volume : d.fat.Volume) (inUse : ∀ c ∈ chain, d.fat.InUse c)
    (done : d.fat.fat32AllocateClusters 1 = some (start, g)) : d.Ready (d.withFat g) chain 1 :=
  ready_of_expands volume inUse (Fat.allocate_expands volume le_rfl done).1 le_rfl rfl fun _ _ => rfl

theorem allocate_ends (volume : d.fat.Volume) (some : d.fat.available ≠ []) :
    ∃ start g, d.fat.fat32AllocateClusters 1 = .some (start, g) ∧ start ≠ 0 := by
  obtain ⟨start, g, done, -⟩ := Fat.allocate_takes volume.hint le_rfl (List.length_pos_of_ne_nil some)
  obtain ⟨-, -, nonzero, -⟩ := allocate_first volume done
  exact ⟨start, g, done, nonzero⟩

/-! ## `fat32_node_create` -/

theorem nodeCreate_steps (volume : d.fat.Volume) (done : d.fat32NodeCreate fuel parent name flags new = some (err, d', node)) :
    ∃ start g, d.fat.fat32AllocateClusters 1 = some (start, g) ∧ (d.withFat g).fat32AddEntry fuel parent name (.ofNat start)
      (toFatAttr flags) 0 new.node new.clock new.entryName = some (err, d', node) := by
  obtain ⟨⟨start, g⟩, allocated, rest⟩ := Option.bind_eq_some_iff.mp done
  obtain ⟨-, -, nonzero, -⟩ := allocate_first volume allocated
  dsimp only at rest
  rw [if_neg nonzero] at rest
  exact ⟨start, g, allocated, rest⟩

theorem nodeCreate_of_steps (volume : d.fat.Volume) (allocated : d.fat.fat32AllocateClusters 1 = some (start, g)) :
    d.fat32NodeCreate fuel parent name flags new = (d.withFat g).fat32AddEntry fuel parent name (.ofNat start)
      (toFatAttr flags) 0 new.node new.clock new.entryName := by
  obtain ⟨-, -, nonzero, -⟩ := allocate_first volume allocated
  rw [fat32NodeCreate, allocated]
  exact if_neg nonzero

/-! ## `fat32_node_copy` -/

/-- The chain that is copied, and the cluster that its next cluster is copied to. -/
structure Copying (d : Disk) (source : List Nat) (copied : Nat) : Prop where
  volume : d.fat.Volume
  on : d.DirChain source
  kept : ∀ c ∈ source, ¬ d.fat.Free c
  own : d.fat.InUse copied
  apart : copied ∉ source

variable {current c₂ copied : Nat} {cs : List Nat} {d₂ : Disk}

theorem Copying.next (copying : d.Copying (current :: c₂ :: cs) copied)
    (expanded : (d.setData copied (d.data current)).expandChain copied 1 = some (n, d₂)) :
    d₂.Copying (c₂ :: cs) n ∧ d.fat.Expands d₂.fat [copied] 1 ∧ n ∈ d.fat.available.take 1 ∧
      d₂.data = (d.setData copied (d.data current)).data ∧ d₂.sectorsPerCluster = d.sectorsPerCluster := by
  obtain ⟨g, rfl, expands, head⟩ :=
    expandChain_expands (d := d.setData copied (d.data current)) copying.volume le_rfl copying.own expanded
  have took : n ∈ d.fat.available.take 1 := List.mem_of_mem_head? head
  have free := Fat.available_free copying.volume.hint (List.mem_of_mem_take took)
  have same : ∀ x ∈ c₂ :: cs, g.entry x = d.fat.entry x := by
    intro x member
    have inside := List.mem_cons_of_mem current member
    refine expands.same x (fun only => ?_) fun taken => ?_
    · exact copying.apart (List.mem_singleton.mp only ▸ inside)
    · exact copying.kept x inside (Fat.available_free copying.volume.hint (List.mem_of_mem_take taken))
  refine ⟨⟨expands.volume copying.volume, copying.on.tail.kept same, fun x member isFree => ?_, expands.taken n took,
    fun member => ?_⟩, expands, took, rfl, rfl⟩
  · refine copying.kept x (List.mem_cons_of_mem current member) ⟨expands.data.mp isFree.data, ?_⟩
    rw [← isFree.entry]
    exact (Fat.getFatEntry_congr (same x member)).symm
  · exact copying.kept n (List.mem_cons_of_mem current member) free

theorem copyLoop_last (copying : d.Copying [current] copied) (fuel : Nat) :
    copyLoop (fuel + 1) d current copied = some (d.setData copied (d.data current)) := by
  rw [copyLoop]
  exact if_pos (.inl (copying.on.ends current rfl))

theorem copyLoop_cons (copying : d.Copying (current :: c₂ :: cs) copied) (fuel : Nat) :
    copyLoop (fuel + 1) d current copied =
      ((d.setData copied (d.data current)).expandChain copied 1).bind fun r => copyLoop fuel r.2 c₂ r.1 := by
  obtain ⟨next, notEnd, notBad⟩ := copying.on.linked.next
  have next' : (d.setData copied (d.data current)).fat.getFatEntry current = c₂ := next
  rw [copyLoop]
  simp only [next']
  rw [if_neg (not_or.mpr ⟨notEnd, notBad⟩)]
  cases (d.setData copied (d.data current)).expandChain copied 1 <;> rfl

theorem copyLoop_copies (copying : d.Copying (current :: cs) copied) (done : copyLoop fuel d current copied = some d') :
    d.fat.Expands d'.fat [copied] cs.length ∧ d'.sectorsPerCluster = d.sectorsPerCluster ∧
      ∀ x, x ≠ copied → x ∉ d.fat.available.take cs.length → d'.data x = d.data x := by
  induction cs generalizing d current copied fuel with
  | nil =>
      cases fuel with
      | zero => cases done
      | succ fuel =>
          cases (copyLoop_last copying fuel).symm.trans done
          exact ⟨.refl copying.volume.hint, rfl, fun x other _ => Function.update_of_ne other _ _⟩
  | cons c₂ cs ih =>
      cases fuel with
      | zero => cases done
      | succ fuel =>
          obtain ⟨⟨new, d₂⟩, expanded, rest⟩ := Option.bind_eq_some_iff.mp ((copyLoop_cons copying fuel).symm.trans done)
          obtain ⟨later, expands, took, data, sectors⟩ := copying.next expanded
          obtain ⟨expands', sectors', others⟩ := ih later rest
          have total := expands.trans expands' fun x only => .inr (List.mem_singleton.mp only ▸ took)
          rw [Nat.add_comm, ← List.length_cons (a := c₂)] at total
          refine ⟨total, sectors'.trans sectors, fun x other outside => ?_⟩
          have split : d.fat.available.take (c₂ :: cs).length = d.fat.available.take 1 ++ d₂.fat.available.take cs.length := by
            rw [expands.available, List.length_cons, Nat.add_comm, List.take_add]
          rw [split, List.mem_append, not_or] at outside
          rw [others x (fun same => outside.1 (same ▸ took)) outside.2, data]
          exact Function.update_of_ne other _ _

theorem copyLoop_ends (copying : d.Copying (current :: cs) copied) (enough : cs.length < fuel)
    (room : cs.length ≤ d.fat.available.length) : ∃ d', copyLoop fuel d current copied = some d' := by
  induction cs generalizing d current copied fuel with
  | nil =>
      obtain ⟨fuel, rfl⟩ := Nat.exists_eq_add_one.mpr (Nat.zero_lt_of_lt enough)
      exact ⟨_, copyLoop_last copying fuel⟩
  | cons c₂ cs ih =>
      obtain ⟨fuel, rfl⟩ := Nat.exists_eq_add_one.mpr (Nat.zero_lt_of_lt enough)
      rw [List.length_cons] at enough room
      obtain ⟨new, d₂, expanded, -⟩ := expandChain_succeeds (d := d.setData copied (d.data current)) (n := 1) copying.volume le_rfl
        copying.own (Nat.one_le_of_lt room)
      obtain ⟨later, expands, -, -, -⟩ := copying.next expanded
      have fuelled : cs.length < fuel := Nat.lt_of_succ_lt_succ enough
      obtain ⟨d', rest⟩ := ih later fuelled (by rw [expands.available, List.length_drop]; omega)
      rw [copyLoop_cons copying, expanded]
      exact ⟨d', rest⟩

section
variable (volume : d.fat.Volume) (nonempty : source ≠ []) (on : d.DirChain source) (kept : ∀ c ∈ source, ¬ d.fat.Free c)
include volume nonempty on kept

omit nonempty in
theorem copying_first (allocated : d.fat.fat32AllocateClusters 1 = some (start, g)) : (d.withFat g).Copying source start := by
  obtain ⟨next, free, -, expands, -, -⟩ := allocate_first volume allocated
  have took : start ∈ d.fat.available.take 1 := by
    rw [free]
    exact List.mem_cons_self
  have isFree := Fat.available_free volume.hint (List.mem_of_mem_take took)
  have same : ∀ x ∈ source, g.entry x = d.fat.entry x := fun x member =>
    expands.same x List.not_mem_nil fun taken => kept x member (Fat.available_free volume.hint (List.mem_of_mem_take taken))
  refine ⟨expands.volume volume, on.kept same, fun x member free => ?_, expands.taken start took, fun member => ?_⟩
  · refine kept x member ⟨expands.data.mp free.data, ?_⟩
    rw [← free.entry]
    exact (Fat.getFatEntry_congr (same x member)).symm
  · exact kept start member isFree

theorem copyClusterChain_ready (inUse : ∀ c ∈ chain, d.fat.InUse c)
    (done : d.copyClusterChain fuel (source.getD 0 0) = some (start, d₁)) : start ≠ 0 ∧ d.Ready d₁ chain source.length := by
  obtain ⟨⟨first, g⟩, allocated, rest⟩ := Option.bind_eq_some_iff.mp done
  have copying := copying_first volume on kept allocated
  obtain ⟨next, free, nonzero, expands, -, -⟩ := allocate_first volume allocated
  dsimp only at rest
  rw [if_neg nonzero] at rest
  obtain ⟨d₂, loop, same⟩ := Option.bind_eq_some_iff.mp rest
  cases same
  obtain ⟨c, cs, rfl⟩ := List.exists_cons_of_ne_nil nonempty
  obtain ⟨expands', sectors, others⟩ := copyLoop_copies copying loop
  have took : start ∈ d.fat.available.take 1 := by
    rw [free]
    exact List.mem_cons_self
  have split : d.fat.available.take (1 + cs.length) = d.fat.available.take 1 ++ g.available.take cs.length := by
    rw [expands.available, List.take_add]
  rw [List.length_cons, Nat.add_comm]
  refine ⟨nonzero, ready_of_expands volume inUse (expands.trans expands' fun x only => ?_) (Nat.le_add_right ..) sectors
    fun x outside => ?_⟩
  · exact .inr (List.mem_singleton.mp only ▸ took)
  · rw [split, List.mem_append, not_or] at outside
    exact others x (fun same => outside.1 (same ▸ took)) outside.2

theorem copyClusterChain_ends (enough : source.length ≤ fuel) (room : source.length ≤ d.fat.available.length) :
    ∃ start d₁, d.copyClusterChain fuel (source.getD 0 0) = some (start, d₁) := by
  have some : d.fat.available ≠ [] := by
    intro none
    rw [none] at room
    exact nonempty (List.length_eq_zero_iff.mp (Nat.le_zero.mp room))
  obtain ⟨start, g, allocated, nonzero⟩ := allocate_ends volume some
  have copying := copying_first volume on kept allocated
  obtain ⟨-, -, -, expands, -, -⟩ := allocate_first volume allocated
  obtain ⟨c, cs, rfl⟩ := List.exists_cons_of_ne_nil nonempty
  rw [List.length_cons] at enough room
  obtain ⟨d₁, loop⟩ := copyLoop_ends copying enough (by
    change cs.length ≤ g.available.length
    rw [expands.available, List.length_drop]
    omega)
  refine ⟨start, d₁, ?_⟩
  rw [copyClusterChain, allocated]
  change (if start = 0 then _ else _) = _
  rw [if_neg nonzero]
  change (copyLoop fuel (d.withFat g) c start).bind _ = _
  rw [loop]
  rfl

end

theorem nodeCopy_of_steps (first : node.startCluster.toNat = source.getD 0 0)
    (copied : d.copyClusterChain fuel (source.getD 0 0) = some (start, d₁)) (nonzero : start ≠ 0) :
    d.fat32NodeCopy fuel node parent name new = d₁.fat32AddEntry fuel parent name (.ofNat start) (toFatAttr node.flags) node.size
      new.node new.clock new.entryName := by
  rw [fat32NodeCopy, first, copied]
  exact if_neg nonzero

/-! ## When an error leaves nothing behind -/

section
variable (sized : d.Sized) (volume : d.fat.Volume) (inUse : ∀ c ∈ chain, d.fat.InUse c) (nonempty : chain ≠ [])
  (on : d.DirChain chain)
include sized volume inUse nonempty on

theorem nodeCreate_allOrNothing_iff (name : Name) (flags : BitVec 32) (new : Scratch) :
    d.AllOrNothing (chain.getD 0 0) (fun fuel => d.fat32NodeCreate fuel (chain.getD 0 0) name flags new) ↔
    d.fat.available = [] ∨ ¬ d.Finds chain name new.entryName := by
  rw [allOrNothing_iff]
  · constructor
    · intro never
      by_contra both
      rw [not_or, not_not] at both
      obtain ⟨start, g, allocated, -⟩ := allocate_ends volume both.1
      have failed := (ready_allocate volume inUse allocated).finds sized nonempty on (Nat.lt_succ_self _) both.2 (.ofNat start)
        (toFatAttr flags) 0 new.node new.clock
      cases never _ _ _ _ ((nodeCreate_of_steps volume allocated).trans failed)
    · intro condition fuel err d' node done
      by_contra failed
      obtain ⟨start, g, allocated, added⟩ := nodeCreate_steps volume done
      obtain ⟨next, free, -⟩ := allocate_first volume allocated
      obtain ⟨finds, -⟩ := (ready_allocate volume inUse allocated).failed sized volume inUse nonempty on failed added
      rcases condition with none | absent
      · cases free.symm.trans none
      · exact absent finds
  · intro fuel err d' node done failed
    obtain ⟨start, g, allocated, added⟩ := nodeCreate_steps volume done
    exact ((ready_allocate volume inUse allocated).failed sized volume inUse nonempty on failed added).2

theorem nodeCreate_succeeds (accepts : d.Accepts 1 chain name new.entryName) : ∃ fuel d' node,
    d.fat32NodeCreate fuel (chain.getD 0 0) name flags new = .some (.success, d', node) := by
  have room := accepts.room
  obtain ⟨start, g, allocated, -⟩ := allocate_ends volume (List.ne_nil_of_length_pos (by omega))
  obtain ⟨d', node, added⟩ := (ready_allocate volume inUse allocated).succeeds sized volume inUse nonempty on (Nat.lt_succ_self _)
    accepts (.ofNat start) (toFatAttr flags) 0 new.node new.clock
  exact ⟨_, d', node, (nodeCreate_of_steps volume allocated).trans added⟩

variable (some : source ≠ []) (walk : d.DirChain source) (kept : ∀ c ∈ source, ¬ d.fat.Free c)
  (first : node.startCluster.toNat = source.getD 0 0)
include some walk kept first

omit sized nonempty on in
theorem nodeCopy_steps (done : d.fat32NodeCopy fuel node (chain.getD 0 0) name new = .some (err, d', copied')) :
    ∃ start d₁, d.Ready d₁ chain source.length ∧ d₁.fat32AddEntry fuel (chain.getD 0 0) name (.ofNat start) (toFatAttr node.flags)
      node.size new.node new.clock new.entryName = .some (err, d', copied') := by
  obtain ⟨⟨start, d₁⟩, copied, rest⟩ := Option.bind_eq_some_iff.mp done
  rw [first] at copied
  obtain ⟨nonzero, ready⟩ := copyClusterChain_ready volume some walk kept inUse copied
  dsimp only at rest
  rw [if_neg nonzero] at rest
  exact ⟨start, d₁, ready, rest⟩

theorem nodeCopy_allOrNothing_iff (name : Name) (new : Scratch) :
    d.AllOrNothing (chain.getD 0 0) (fun fuel => d.fat32NodeCopy fuel node (chain.getD 0 0) name new) ↔
    d.fat.available.length < source.length ∨ ¬ d.Finds chain name new.entryName := by
  rw [allOrNothing_iff]
  · constructor
    · intro never
      by_contra both
      rw [not_or, not_not, not_lt] at both
      obtain ⟨start, d₁, copied⟩ := copyClusterChain_ends volume some walk kept (Nat.le_add_left source.length (chain.length + 1)) both.1
      obtain ⟨nonzero, ready⟩ := copyClusterChain_ready volume some walk kept inUse copied
      have failed := ready.finds sized nonempty on (show chain.length < chain.length + 1 + source.length by omega) both.2 (.ofNat start)
        (toFatAttr node.flags) node.size new.node new.clock
      cases never _ _ _ _ ((nodeCopy_of_steps first copied nonzero).trans failed)
    · intro condition fuel err d' copied' done
      by_contra failed
      obtain ⟨start, d₁, ready, added⟩ := nodeCopy_steps volume inUse some walk kept first done
      obtain ⟨finds, -⟩ := ready.failed sized volume inUse nonempty on failed added
      have enough := ready.expands.enough
      rcases condition with few | absent
      · omega
      · exact absent finds
  · intro fuel err d' copied' done failed
    obtain ⟨start, d₁, ready, added⟩ := nodeCopy_steps volume inUse some walk kept first done
    exact (ready.failed sized volume inUse nonempty on failed added).2

theorem nodeCopy_succeeds (accepts : d.Accepts source.length chain name new.entryName) : ∃ fuel d' copied',
    d.fat32NodeCopy fuel node (chain.getD 0 0) name new = .some (.success, d', copied') := by
  have room := accepts.room
  obtain ⟨start, d₁, copied⟩ := copyClusterChain_ends volume some walk kept (Nat.le_add_left source.length (chain.length + 1)) (by omega)
  obtain ⟨nonzero, ready⟩ := copyClusterChain_ready volume some walk kept inUse copied
  obtain ⟨d', copied', added⟩ := ready.succeeds sized volume inUse nonempty on
    (show chain.length < chain.length + 1 + source.length by omega) accepts (.ofNat start)
      (toFatAttr node.flags) node.size new.node new.clock
  exact ⟨_, d', copied', (nodeCopy_of_steps first copied nonzero).trans added⟩

end

end Disk
end Kerosene.Fat32
