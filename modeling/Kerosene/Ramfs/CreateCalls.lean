import Kerosene.Ramfs.Create

/-!
# What the calls that create entries allocate

`ramfs_node_create`, `ramfs_mkdir` and `ramfs_create_special_node` again, and `ramfs_node_copy`, with each block
that they get from one of the two heaps and each that they give back.
-/

namespace Kerosene.Ramfs

-- a block of `rheap`, or one that `kmalloc` gave
inductive HeapBlock where
  | rheap (a : Addr)
  | kheap (a : Addr)
  deriving DecidableEq

inductive HeapCall where
  | alloc (block : HeapBlock)
  | free (block : HeapBlock)

def allocated : List HeapCall → List HeapBlock
  | [] => []
  | .alloc block :: calls => block :: allocated calls
  | .free _ :: calls => allocated calls

def freed : List HeapCall → List HeapBlock
  | [] => []
  | .alloc _ :: calls => freed calls
  | .free block :: calls => block :: freed calls

/-- The blocks that were obtained have been given back, and no other ones. -/
def AllFreed (calls : List HeapCall) : Prop := (allocated calls).Perm (freed calls)

/-- What the allocators answer in one `ramfs_add_entry`: `rmalloc` for the ramnode, with the word it held where
the union comes to lie, `semaphore_create` for the lock and for the two ends of a pipe, and `rmalloc` for one more
datanode. -/
structure EntryGrants where
  ramnode : Option Addr
  stale : Option Addr
  lock : Option Addr
  bytesAvailable : Option Addr
  spaceAvailable : Option Addr
  datanode : Option Addr

namespace EntryGrants

-- one of the two semaphores of a pipe is not granted
def PipeRefused (g : EntryGrants) (flags : BitVec 32) : Prop :=
  fsNodeType flags = fsNodeTypePipe ∧ (g.bytesAvailable = none ∨ g.spaceAvailable = none)

instance (g : EntryGrants) (flags : BitVec 32) : Decidable (g.PipeRefused flags) :=
  inferInstanceAs (Decidable (_ ∧ (_ ∨ _)))

def grants (g : EntryGrants) (flags : BitVec 32) : Grants :=
  ⟨g.ramnode, g.stale, g.lock.isSome && !decide (g.PipeRefused flags), g.datanode⟩

end EntryGrants

namespace Heap

def loggedNewNode (h : Heap) (name : Name) (flags size : BitVec 32) (data : Option Addr) (g : EntryGrants) :
    Option (Addr × Heap) × List HeapCall :=
  match g.ramnode, g.lock with
  | none, _ => (none, [])
  | some node, none => (none, [.alloc (.rheap node), .free (.rheap node)])
  | some node, some lock =>
      let new := newRamnode (name.take (filenameLimit - 1)) flags size data (g.grants flags)
      let calls := [.alloc (.rheap node), .alloc (.kheap lock)]
      if fsNodeType flags = fsNodeTypePipe then
        let pipe := [g.bytesAvailable, g.spaceAvailable].reduceOption
        let calls := calls ++ pipe.map fun a => .alloc (.kheap a)
        if g.bytesAvailable = none ∨ g.spaceAvailable = none then
          -- the lock is not given back
          (none, calls ++ (pipe.map fun a => .free (.kheap a)) ++ [.free (.rheap node)])
        else (some (node, h.putRamnode node new), calls)
      else (some (node, h.putRamnode node new), calls)

def loggedAddEntry (h : Heap) (parent : Addr) (name : Name) (data : Option Addr) (flags size : BitVec 32)
    (g : EntryGrants) : Option (Except FsErr FsNode × Heap × List HeapCall) := do
  let chain ← (← h.ramnode parent).data
  match ← walkEntries h (h.addRound name) chainFuel chain none with
  | .inr _ => return (.error .entryExisted, h, [])
  | .inl (finalDatanode, empty) =>
      match h.loggedNewNode name flags size data g with
      | (none, calls) => return (.error .notEnoughSpace, h, calls)
      | (some (ramnode, h), calls) =>
          let node ← h.ramnode ramnode
          let (a, emptyEntry) ← empty
          let entry ← (← h.datanode a).data.toList[emptyEntry]?
          if entry = .endEntry then
            if emptyEntry < directoryEntryCount - 1 then
              return (.ok (toFsNode ramnode node),
                (h.setEntry a (emptyEntry + 1) .endEntry).setEntry a emptyEntry (.ramnode ramnode), calls)
            else match g.datanode with
              | none => return (.error .notEnoughSpace, h.rfreeRamnode ramnode, calls ++ [.free (.rheap ramnode)])
              | some newDatanode =>
                  let s := (h.datanode.put newDatanode ⟨none, noEntries⟩).setNext finalDatanode (some newDatanode)
                  return (.ok (toFsNode ramnode node), (h.withDatanodes s).setEntry a emptyEntry (.ramnode ramnode),
                    calls ++ [.alloc (.rheap newDatanode)])
          else return (.ok (toFsNode ramnode node), h.setEntry a emptyEntry (.ramnode ramnode), calls)

variable {h h' : Heap} {parent : Addr} {name : Name} {data : Option Addr} {flags size : BitVec 32} {g : EntryGrants}

theorem loggedNewNode_erase (h : Heap) (name : Name) (flags size : BitVec 32) (data : Option Addr) (g : EntryGrants) :
    (h.loggedNewNode name flags size data g).1 = h.createNewNode name flags size data (g.grants flags) := by
  rw [loggedNewNode, createNewNode]
  cases ramnode : g.ramnode with
  | none => simp [EntryGrants.grants, ramnode]
  | some node =>
      cases lock : g.lock with
      | none => simp [EntryGrants.grants, ramnode, lock]
      | some lock' =>
          by_cases refused : g.PipeRefused flags
          · simp [EntryGrants.grants, ramnode, lock, refused, refused.1, refused.2]
          · by_cases pipe : fsNodeType flags = fsNodeTypePipe
            · have granted : ¬ (g.bytesAvailable = none ∨ g.spaceAvailable = none) := fun none => refused ⟨pipe, none⟩
              simp [EntryGrants.grants, ramnode, lock, refused, pipe, granted, newRamnode]
            · simp [EntryGrants.grants, ramnode, lock, refused, pipe, newRamnode]

theorem loggedAddEntry_erase (h : Heap) (parent : Addr) (name : Name) (data : Option Addr) (flags size : BitVec 32)
    (g : EntryGrants) : (h.loggedAddEntry parent name data flags size g).map (fun r => (r.1, r.2.1)) =
      h.ramfsAddEntry parent name data flags size (g.grants flags) := by
  have same := loggedNewNode_erase h name flags size data g
  simp only [loggedAddEntry, ramfsAddEntry, Option.bind_eq_bind, Option.map_bind, Function.comp_def]
  refine Option.bind_congr fun node _ => Option.bind_congr fun chain _ => Option.bind_congr fun r _ => ?_
  cases r with
  | inr _ => rfl
  | inl r =>
      obtain ⟨finalDatanode, empty⟩ := r
      dsimp only
      rw [← same]
      obtain ⟨made, calls⟩ := h.loggedNewNode name flags size data g
      cases made with
      | none => rfl
      | some made =>
          obtain ⟨ramnode, h₁⟩ := made
          simp only [Function.comp_def, Option.map_bind]
          refine Option.bind_congr fun node _ => Option.bind_congr fun place _ => Option.bind_congr fun block _ =>
            Option.bind_congr fun entry _ => ?_
          split_ifs
          · rfl
          · have datanode : (g.grants flags).datanode = g.datanode := rfl
            rw [datanode]
            cases g.datanode <;> rfl
          · rfl

/-! ## The blocks that are left -/

@[simp] theorem allocated_append (calls more : List HeapCall) : allocated (calls ++ more) = allocated calls ++ allocated more := by
  induction calls with
  | nil => rfl
  | cons call calls ih => cases call <;> simp [allocated, ih]

@[simp] theorem freed_append (calls more : List HeapCall) : freed (calls ++ more) = freed calls ++ freed more := by
  induction calls with
  | nil => rfl
  | cons call calls ih => cases call <;> simp [freed, ih]

section
variable {α : Type*} (f : α → HeapBlock) (l : List α)

@[simp] theorem allocated_map_alloc : allocated (l.map fun a => .alloc (f a)) = l.map f := by
  induction l with
  | nil => rfl
  | cons a l ih => exact congrArg (f a :: ·) ih

@[simp] theorem freed_map_alloc : freed (l.map fun a => .alloc (f a)) = [] := by
  induction l with
  | nil => rfl
  | cons a l ih => exact ih

@[simp] theorem freed_map_free : freed (l.map fun a => .free (f a)) = l.map f := by
  induction l with
  | nil => rfl
  | cons a l ih => exact congrArg (f a :: ·) ih

@[simp] theorem allocated_map_free : allocated (l.map fun a => .free (f a)) = [] := by
  induction l with
  | nil => rfl
  | cons a l ih => exact ih

end

/-- More blocks were obtained than given back. -/
def Leaks (calls : List HeapCall) : Prop := (freed calls).length < (allocated calls).length

theorem Leaks.not_allFreed {calls : List HeapCall} (leaks : Leaks calls) : ¬ AllFreed calls := fun all =>
  leaks.ne all.length_eq.symm

theorem allFreed_nil : AllFreed [] := List.Perm.refl []

theorem loggedNewNode_refused (refused : g.ramnode = none ∨ g.lock = none) (h : Heap) (name : Name) (flags size : BitVec 32)
    (data : Option Addr) : ∃ calls, h.loggedNewNode name flags size data g = (none, calls) ∧ AllFreed calls := by
  cases ramnode : g.ramnode with
  | none => exact ⟨[], by rw [loggedNewNode, ramnode], allFreed_nil⟩
  | some node =>
      have lock : g.lock = none := refused.resolve_left (by rw [ramnode]; exact Option.some_ne_none node)
      exact ⟨[.alloc (.rheap node), .free (.rheap node)], by rw [loggedNewNode, ramnode, lock], List.Perm.refl _⟩

section
variable {node lock : Addr} (ramnode : g.ramnode = some node) (locked : g.lock = some lock)
include ramnode locked

theorem loggedNewNode_pipe (refused : g.PipeRefused flags) (h : Heap) (name : Name) (size : BitVec 32) (data : Option Addr) :
    ∃ calls, h.loggedNewNode name flags size data g = (none, calls) ∧ Leaks calls := by
  refine ⟨_, by rw [loggedNewNode, ramnode, locked]; dsimp only; rw [if_pos refused.1, if_pos refused.2], ?_⟩
  rw [Leaks, allocated_append, allocated_append, allocated_append, freed_append, freed_append, freed_append]
  simp only [allocated_map_alloc, freed_map_alloc, allocated_map_free, freed_map_free, allocated, freed, List.length_append,
    List.length_map, List.length_cons, List.length_nil]
  omega

theorem loggedNewNode_made (granted : ¬ g.PipeRefused flags) (h : Heap) (name : Name) (size : BitVec 32) (data : Option Addr) :
    ∃ calls, h.loggedNewNode name flags size data g =
      (some (node, h.putRamnode node (newRamnode (name.take (filenameLimit - 1)) flags size data (g.grants flags))), calls) ∧
      freed calls = [] ∧ 2 ≤ (allocated calls).length := by
  by_cases pipe : fsNodeType flags = fsNodeTypePipe
  · have both : ¬ (g.bytesAvailable = none ∨ g.spaceAvailable = none) := fun none => granted ⟨pipe, none⟩
    refine ⟨_, by rw [loggedNewNode, ramnode, locked]; dsimp only; rw [if_pos pipe, if_neg both], ?_, ?_⟩
    · simp [freed]
    · simp [allocated]
  · exact ⟨_, by rw [loggedNewNode, ramnode, locked]; dsimp only; rw [if_neg pipe], rfl, le_rfl⟩

end

-- no slot is free, and the next one would be the last of its datanode
def Full (slots : List Slot) : Prop := .emptyEntry ∉ slots ∧ slots.length % 128 = 127

/-- What an entry takes is granted. -/
structure Granted (g : EntryGrants) (flags : BitVec 32) (slots : List Slot) : Prop where
  ramnode : g.ramnode.isSome
  lock : g.lock.isSome
  pipe : ¬ g.PipeRefused flags
  datanode : Full slots → g.datanode.isSome

variable {chain : Addr} {nodes : List Addr} {slots : List Slot} {node : Ramnode}

-- what a call returns, the heap that it leaves, and its calls of the allocators
abbrev Result := Option (Except FsErr FsNode × Heap × List HeapCall)

/-- An error, with the directories as they were. -/
def Fails (h : Heap) (P : List HeapCall → Prop) (r : Result) : Prop := ∃ err calls, r = some (.error err, h, calls) ∧ P calls

/-- The entry is added, and what was obtained for it is kept. -/
def Added (h : Heap) (chain : Addr) (nodes : List Addr) (slots : List Slot) (g : EntryGrants) (new : Ramnode) (r : Result) : Prop :=
  ∃ a h' nodes' calls, g.ramnode = some a ∧ r = some (.ok (toFsNode a new), h', calls) ∧ freed calls = [] ∧
    1 ≤ (allocated calls).length ∧ Adds h h' a new nodes nodes' g.datanode ∧ h'.Stores chain nodes' (insertEntry slots a)

/-- An entry that exists, a ramnode or a lock that is refused: nothing is left behind. A semaphore of a pipe or a datanode
that is refused: the lock at least stays. Else the entry is added. -/
theorem loggedAddEntry_outcome (dir : h.Directory chain nodes slots) (here : h.ramnode parent = some node)
    (owns : node.data = some chain) (fresh : Grants.Fresh (g.grants flags) h) (name : Name) (data : Option Addr) (size : BitVec 32) :
    ((some name ∈ h.names slots ∨ g.ramnode = none ∨ g.lock = none) ∧ h.Fails AllFreed (h.loggedAddEntry parent name data flags size g)) ∨
    ((some name ∉ h.names slots ∧ g.ramnode ≠ none ∧ g.lock ≠ none ∧ ¬ Granted g flags slots) ∧
      h.Fails Leaks (h.loggedAddEntry parent name data flags size g)) ∨
    ((some name ∉ h.names slots ∧ Granted g flags slots) ∧
      h.Added chain nodes slots g (newRamnode (name.take (filenameLimit - 1)) flags size data (g.grants flags))
        (h.loggedAddEntry parent name data flags size g)) := by
  have walk := dir.walk_add name
  by_cases listed : some name ∈ h.names slots
  · rw [if_pos listed] at walk
    refine .inl ⟨.inl listed, .entryExisted, [], ?_, allFreed_nil⟩
    simp only [loggedAddEntry, here, owns, walk, Option.bind_eq_bind, Option.bind_some]
    rfl
  rw [if_neg listed] at walk
  by_cases refused : g.ramnode = none ∨ g.lock = none
  · obtain ⟨calls, made, all⟩ := loggedNewNode_refused refused h name flags size data
    refine .inl ⟨.inr refused, .notEnoughSpace, calls, ?_, all⟩
    simp only [loggedAddEntry, here, owns, walk, made, Option.bind_eq_bind, Option.bind_some]
    rfl
  rw [not_or] at refused
  obtain ⟨a, ramnode⟩ := Option.ne_none_iff_exists'.mp refused.1
  obtain ⟨lock, locked⟩ := Option.ne_none_iff_exists'.mp refused.2
  by_cases pipe : g.PipeRefused flags
  · obtain ⟨calls, made, leaks⟩ := loggedNewNode_pipe ramnode locked pipe h name size data
    refine .inr (.inl ⟨⟨listed, refused.1, refused.2, fun granted => granted.pipe pipe⟩, .notEnoughSpace, calls, ?_, leaks⟩)
    simp only [loggedAddEntry, here, owns, walk, made, Option.bind_eq_bind, Option.bind_some]
    rfl
  obtain ⟨calls, made, none, some⟩ := loggedNewNode_made ramnode locked pipe h name size data
  generalize newRamnode (name.take (filenameLimit - 1)) flags size data (g.grants flags) = new at made ⊢
  have unused := (fresh.ramnode a ramnode).1
  have self : (h.putRamnode a new).ramnode a = .some new := Function.update_self ..
  obtain ⟨block, found, entry⟩ := dir.entry_hole
  have found' : (h.putRamnode a new).datanode (nodeOf nodes (hole slots)) = .some block := found
  have granted : (Full slots → g.datanode.isSome) → Granted g flags slots := fun more =>
    ⟨Option.isSome_iff_ne_none.mpr refused.1, Option.isSome_iff_ne_none.mpr refused.2, pipe, more⟩
  by_cases empty : Slot.emptyEntry ∈ slots
  · rw [if_pos empty] at entry
    obtain ⟨adds, stored⟩ := dir.toStores.linkHole a new empty g.datanode
    refine .inr (.inr ⟨⟨listed, granted fun full => absurd empty full.1⟩, a, _, nodes, calls, ramnode, ?_, none,
      Nat.le_of_succ_le some, adds, stored⟩)
    simp only [loggedAddEntry, here, owns, walk, made, self, found', entry, Option.bind_eq_bind, Option.bind_some, reduceCtorEq,
      if_false]
    rfl
  · have last : hole slots = slots.length := List.idxOf_eq_length empty
    rw [if_neg empty, last] at entry
    rw [last] at found' walk
    by_cases space : slots.length % 128 < 127
    · have room : slots.length % 128 < directoryEntryCount - 1 := space
      obtain ⟨adds, stored⟩ := dir.toStores.linkLast a new empty space g.datanode
      refine .inr (.inr ⟨⟨listed, granted fun full => absurd full.2 (by omega)⟩, a, _, nodes, calls, ramnode, ?_, none,
        Nat.le_of_succ_le some, adds, stored⟩)
      simp only [loggedAddEntry, here, owns, walk, made, self, found', entry, Option.bind_eq_bind, Option.bind_some, if_true, room]
      rfl
    · have room : ¬ slots.length % 128 < directoryEntryCount - 1 := space
      have full : Full slots := ⟨empty, by omega⟩
      cases more : g.datanode with
      | none =>
          refine .inr (.inl ⟨⟨listed, refused.1, refused.2, fun granted => ?_⟩, .notEnoughSpace,
            calls ++ [.free (.rheap a)], ?_, ?_⟩)
          · have := granted.datanode full
            rw [more] at this
            cases this
          · simp only [loggedAddEntry, here, owns, walk, made, self, found', entry, Option.bind_eq_bind, Option.bind_some,
              if_true, room, if_false, more]
            rw [rfreeRamnode_putRamnode unused]
            rfl
          · rw [Leaks, freed_append, allocated_append, none]
            simp only [freed, allocated, List.nil_append, List.append_nil, List.length_singleton]
            omega
      | some b =>
          obtain ⟨adds, stored⟩ := dir.toStores.linkGrown a new empty space (fresh.datanode b more).2
          rw [← more] at adds
          refine .inr (.inr ⟨⟨listed, granted fun _ => by rw [more]; rfl⟩, a, _, nodes ++ [b], calls ++ [.alloc (.rheap b)], ramnode,
            ?_, ?_, ?_, adds, stored⟩)
          · simp only [loggedAddEntry, here, owns, walk, made, self, found', entry, Option.bind_eq_bind, Option.bind_some,
              if_true, room, if_false, more]
            rfl
          · rw [freed_append, none]
            rfl
          · rw [allocated_append, List.length_append]
            omega

end Heap
end Kerosene.Ramfs
