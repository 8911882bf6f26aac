import Kerosene.Ramfs.Create
import Kerosene.Ramfs.CreateCalls

/-!
# Creation that fails

What the calls that create entries leave behind where an allocator refuses, or where the entry exists.
-/

namespace Kerosene.Ramfs

/-- What the allocators answer in one call: `rmalloc` for the first datanode, and the answers for the entry itself
and for the two dots of a directory. -/
structure CallGrants where
  datanode : Datanodes.Grant Entries
  entry : EntryGrants
  dot : EntryGrants
  dotdot : EntryGrants

/-- What the allocators answer in one `ramfs_node_copy`: `rmalloc` for each datanode, and the answers for the entry. -/
structure CopyGrants where
  datanodes : List (Datanodes.Grant Entries)
  entry : EntryGrants

def dotFlags : BitVec 32 := fsNodeTypeDirectory ||| fsNodeFlagHidden

def CallGrants.plain (g : CallGrants) (flags : BitVec 32) : CreateGrants :=
  ⟨g.datanode, g.entry.grants flags, g.dot.grants dotFlags, g.dotdot.grants dotFlags⟩

def EntryGrants.blocks (g : EntryGrants) : List Addr := g.ramnode.toList ++ g.datanode.toList

def CallGrants.blocks (g : CallGrants) : List Addr :=
  (g.datanode.map Prod.fst).toList ++ (g.entry.blocks ++ (g.dot.blocks ++ g.dotdot.blocks))

def CopyGrants.blocks (g : CopyGrants) : List Addr := Datanodes.blocksOf g.datanodes ++ g.entry.blocks

namespace Datanodes
variable {δ : Type*}

/-- `copy_datanode_chain`, which gives back nothing of a copy that it cannot finish. -/
def copyLoop : (fuel : Nat) → (s : Datanodes δ) → (current copied ret : Option Addr) → List (Grant δ) →
    Option (Option Addr × Datanodes δ × List Addr)
  | _, s, none, _, ret, _ => some (ret, s, [])
  | 0, _, some _, _, _, _ => none
  | fuel + 1, s, some current, copied, ret, grants =>
      let link := fun next => (copied.elim s fun last => s.setNext last next : Datanodes δ)
      match grants.head?.join with
      | none => some (none, link none, [])
      | some (block, stale) => do
          let s := (link (some block)).put block ⟨none, stale.data⟩
          let node ← s current
          let (ret, s, blocks) ←
            copyLoop fuel (s.setData block node.data) node.next (some block) (ret.or (some block)) grants.tail
          return (ret, s, block :: blocks)

def copyDatanodeChain (s : Datanodes δ) (datanode : Option Addr) (grants : List (Grant δ)) :
    Option (Option Addr × Datanodes δ × List Addr) :=
  copyLoop chainFuel s datanode none none grants

/-- The first `count` blocks that are asked for are granted. -/
def AllGranted (grants : List (Grant δ)) (count : Nat) : Prop := ∀ i < count, (grants[i]?.join).isSome

theorem allGranted_succ {grants : List (Grant δ)} {count : Nat} :
    AllGranted grants (count + 1) ↔ grants.head?.join.isSome ∧ AllGranted grants.tail count := by
  constructor
  · refine fun all => ⟨?_, fun i inside => ?_⟩
    · rw [List.head?_eq_getElem?]
      exact all 0 (Nat.succ_pos count)
    · rw [List.getElem?_tail]
      exact all (i + 1) (Nat.succ_lt_succ inside)
  · rintro ⟨first, later⟩ i inside
    cases i with
    | zero => rwa [← List.head?_eq_getElem?]
    | succ i =>
        rw [← List.getElem?_tail]
        exact later i (Nat.lt_of_succ_lt_succ inside)

theorem copyLoop_spec {fuel : Nat} {l : List Addr} {s : Datanodes δ} {current copied : Option Addr}
    {grants : List (Grant δ)} (ret : Option Addr) (chain : s.Chain current l) (enough : l.length ≤ fuel) (fresh : s.Fresh grants)
    (own : ∀ c, copied = some c → (s c).isSome ∧ c ∉ l) :
    ∃ ret' s' blocks, copyLoop fuel s current copied ret grants = some (ret', s', blocks) ∧
      blocks <+: blocksOf grants ∧ (∀ b ∉ blocks, copied ≠ some b → s' b = s b) ∧
      (blocks = [] ↔ l = [] ∨ grants.head?.join = none) ∧
      (AllGranted grants l.length → ret' = ret.or blocks.head?) ∧ (¬ AllGranted grants l.length → ret' = none) := by
  induction l generalizing fuel s current copied ret grants with
  | nil =>
      have ended : current = none := chain.links
      subst ended
      have all : AllGranted grants ([] : List Addr).length := fun i inside => absurd inside (Nat.not_lt_zero i)
      exact ⟨ret, s, [], by cases fuel <;> rfl, List.nil_prefix, fun _ _ _ => rfl, by simp, fun _ => by simp,
        fun refused => absurd all refused⟩
  | cons a l ih =>
      obtain ⟨fuel, rfl⟩ : ∃ m, fuel = m + 1 := ⟨fuel - 1, by rw [List.length_cons] at enough; omega⟩
      obtain ⟨node, rfl, here, later⟩ := chain_cons.mp chain
      have linked : ∀ next b, copied ≠ some b → (copied.elim s fun last => s.setNext last next : Datanodes δ) b = s b := by
        intro next b other
        cases copied with
        | none => rfl
        | some c => exact Function.update_of_ne (fun same => other (by rw [same])) ..
      cases granted : grants.head?.join with
      | none =>
          have refused : ¬ AllGranted grants (a :: l).length := fun all => by
            have := (allGranted_succ.mp all).1
            rw [granted] at this
            cases this
          refine ⟨none, (copied.elim s fun last => s.setNext last none : Datanodes δ), [], ?_, List.nil_prefix,
            fun b _ other => linked none b other, by simp, fun all => absurd all refused, fun _ => rfl⟩
          rw [copyLoop]
          simp only [granted]
      | some grant =>
          obtain ⟨block, stale⟩ := grant
          obtain ⟨rest, rfl⟩ : ∃ rest, grants = some (block, stale) :: rest := by
            cases grants with
            | nil => cases granted
            | cons grant rest => exact ⟨rest, by rw [show grant = some (block, stale) from granted]⟩
          have free : s block = none := fresh.unused block List.mem_cons_self
          have notBlock : ∀ b, (s b).isSome → b ≠ block := by
            rintro b some rfl
            rw [free] at some
            cases some
          generalize made : (copied.elim s fun last => s.setNext last (some block) : Datanodes δ).put block
            ⟨none, stale.data⟩ = s₁
          have same : ∀ b, b ≠ block → copied ≠ some b → s₁ b = s b := by
            intro b notNew other
            rw [← made, put, Function.update_of_ne notNew]
            exact linked (some block) b other
          have here₁ : s₁ a = some node := by
            rw [same a (notBlock a (by rw [here]; rfl)) fun isLast => (own a isLast).2 List.mem_cons_self, here]
          have kept : ∀ b, b ≠ block → copied ≠ some b → s₁.setData block node.data b = s b := fun b notNew other =>
            (setData_of_ne notNew s₁ node.data).trans (same b notNew other)
          have chain₂ : (s₁.setData block node.data).Chain node.next l := later.congr fun b member =>
            kept b (notBlock b (later.allocated b member)) fun isLast => (own b isLast).2 (List.mem_cons_of_mem a member)
          have fresh₂ : (s₁.setData block node.data).Fresh rest := by
            refine ⟨fun b member => ?_, fresh.tail.apart⟩
            have unused := fresh.tail.unused b member
            rw [kept b ?_ ?_, unused]
            · rintro rfl
              exact (List.nodup_cons.mp fresh.apart).1 member
            · intro isLast
              have := (own b isLast).1
              rw [unused] at this
              cases this
          have own₂ : ∀ c, some block = some c → ((s₁.setData block node.data) c).isSome ∧ c ∉ l := by
            rintro c isBlock
            cases isBlock
            refine ⟨?_, fun member => notBlock block (later.allocated block member) rfl⟩
            rw [setData_isSome, ← made, put, Function.update_self]
            rfl
          obtain ⟨ret', s', blocks, run, given, frame, -, all, refused⟩ :=
            ih (ret.or (some block)) chain₂ (Nat.le_of_succ_le_succ enough) fresh₂ own₂
          refine ⟨ret', s', block :: blocks, ?_, List.cons_prefix_cons.mpr ⟨rfl, given⟩, fun b outside other => ?_,
            by simp, fun every => ?_, fun some => refused fun every => some (allGranted_succ.mpr ⟨rfl, every⟩)⟩
          · rw [copyLoop]
            simp only [granted, made, here₁, Option.bind_eq_bind, Option.bind_some, List.tail_cons, run]
            rfl
          · rw [List.mem_cons, not_or] at outside
            rw [frame b outside.2 fun isBlock => outside.1 (Option.some.inj isBlock).symm]
            exact kept b outside.1 other
          · rw [all (allGranted_succ.mp every).2]
            cases ret <;> rfl

end Datanodes

namespace Heap

def Result.after (calls : List HeapCall) (r : Result) : Result := r.map fun r => (r.1, r.2.1, calls ++ r.2.2)

def loggedNodeCreate (h : Heap) (parent : Addr) (name : Name) (flags : BitVec 32) (g : CallGrants) : Result := do
  match ← h.datanode.ramfsAllocateDatanodes 1 none [g.datanode] with
  | (none, s) => return (.error .notEnoughSpace, h.withDatanodes s, [])
  | (some chain, s) =>
      Result.after [.alloc (.rheap chain)]
        ((h.withDatanodes s).loggedAddEntry parent name (some chain) (flags ||| fsNodeTypeFile) 0#32 g.entry)

def loggedAddDots (h : Heap) (parent : Addr) (node : FsNode) (g : CallGrants) : Result := do
  match ← h.loggedAddEntry node.nodeAddr dot (h.chainOf node.nodeAddr) dotFlags 0#32 g.dot with
  | (.error err, h, calls) => return (.error err, h, calls)
  | (.ok _, h, calls) => Result.after calls do
      match ← h.loggedAddEntry node.nodeAddr dotdot (h.chainOf parent) dotFlags 0#32 g.dotdot with
      | (.error err, h, calls) => return (.error err, h, calls)
      | (.ok _, h, calls) => return (.ok node, h, calls)

def loggedMkdir (h : Heap) (parent : Addr) (name : Name) (flags : BitVec 32) (g : CallGrants) : Result := do
  match ← h.datanode.ramfsAllocateDatanodes 1 (some noEntries) [g.datanode] with
  | (none, s) => return (.error .notEnoughSpace, h.withDatanodes s, [])
  | (some chain, s) => Result.after [.alloc (.rheap chain)] do
      match ← (h.withDatanodes s).loggedAddEntry parent name (some chain) (fsNodeTypeDirectory ||| flags) 0#32 g.entry with
      | (.error err, h, calls) => return (.error err, h, calls)
      | (.ok node, h, calls) => Result.after calls (h.loggedAddDots parent node g)

def loggedSpecialNode (h : Heap) (parent : Addr) (name : Name) (type : BitVec 32) (g : CallGrants) : Result := do
  if fsNodeType type = fsNodeTypePipe then
    match ← h.datanode.ramfsAllocateDatanodes 1 none [g.datanode] with
    | (none, s) => return (.error .notEnoughSpace, h.withDatanodes s, [])
    | (some chain, s) =>
        Result.after [.alloc (.rheap chain)] ((h.withDatanodes s).loggedAddEntry parent name (some chain) type 0#32 g.entry)
  else h.loggedAddEntry parent name none type 0#32 g.entry

def loggedNodeCopy (h : Heap) (node : FsNode) (newParent : Addr) (newName : Name) (g : CopyGrants) : Result := do
  let chain := (← h.ramnode node.nodeAddr).data
  let (copied, s, blocks) ← h.datanode.copyDatanodeChain chain g.datanodes
  let calls := blocks.map fun b => .alloc (.rheap b)
  match copied with
  | none => return (.error .notEnoughSpace, h.withDatanodes s, calls)
  | some copied =>
      Result.after calls ((h.withDatanodes s).loggedAddEntry newParent newName (some copied) node.flags node.size g.entry)

/-! ## Without the log -/

variable {h h₁ : Heap} {parent : Addr} {name : Name} {flags : BitVec 32} {r : Result} {calls : List HeapCall}

-- what a call returns and the heap that it leaves
def Result.erase (r : Result) : Option (Except FsErr FsNode × Heap) := r.map fun r => (r.1, r.2.1)

theorem Result.erase_after (calls : List HeapCall) (r : Result) : (r.after calls).erase = r.erase := by
  rw [erase, after, Option.map_map, erase]
  rfl

theorem loggedNodeCreate_erase (h : Heap) (parent : Addr) (name : Name) (flags : BitVec 32) (g : CallGrants) :
    (h.loggedNodeCreate parent name flags g).erase =
      h.ramfsNodeCreate parent name flags (g.plain (flags ||| fsNodeTypeFile)) := by
  simp only [loggedNodeCreate, ramfsNodeCreate, Option.bind_eq_bind, Result.erase, Option.map_bind, Function.comp_def]
  refine Option.bind_congr fun made _ => ?_
  obtain ⟨chain, s⟩ := made
  cases chain with
  | none => rfl
  | some chain => exact (Result.erase_after _ _).trans (loggedAddEntry_erase _ parent name (some chain) _ 0#32 g.entry)

theorem loggedSpecialNode_erase (h : Heap) (parent : Addr) (name : Name) (type : BitVec 32) (g : CallGrants) :
    (h.loggedSpecialNode parent name type g).erase = h.ramfsCreateSpecialNode parent name type (g.plain type) := by
  rw [loggedSpecialNode, ramfsCreateSpecialNode]
  split_ifs with isPipe
  · simp only [Option.bind_eq_bind, Result.erase, Option.map_bind, Function.comp_def]
    refine Option.bind_congr fun made _ => ?_
    obtain ⟨chain, s⟩ := made
    cases chain with
    | none => rfl
    | some chain => exact (Result.erase_after _ _).trans (loggedAddEntry_erase _ parent name (some chain) type 0#32 g.entry)
  · exact loggedAddEntry_erase h parent name none type 0#32 g.entry

theorem loggedAddDots_erase (h : Heap) (parent : Addr) (node : FsNode) (flags : BitVec 32) (g : CallGrants) :
    (h.loggedAddDots parent node g).erase = h.addDots parent node (g.plain flags) := by
  have add : ∀ (h : Heap) (name : Name) (data : Option Addr) (entry : EntryGrants),
      h.ramfsAddEntry node.nodeAddr name data (fsNodeTypeDirectory ||| fsNodeFlagHidden) 0#32 (entry.grants dotFlags) =
        (h.loggedAddEntry node.nodeAddr name data dotFlags 0#32 entry).map fun r => (r.1, r.2.1) :=
    fun h name data entry => (loggedAddEntry_erase h node.nodeAddr name data dotFlags 0#32 entry).symm
  simp only [loggedAddDots, addDots, CallGrants.plain, add, Result.erase, Option.bind_eq_bind, Option.map_bind, Option.bind_map,
    Function.comp_def]
  refine Option.bind_congr fun made _ => ?_
  obtain ⟨result, h, calls⟩ := made
  cases result with
  | error err => rfl
  | ok _ =>
      refine (Result.erase_after calls _).trans ?_
      rw [Result.erase, Option.map_bind]
      refine Option.bind_congr fun made _ => ?_
      obtain ⟨result, h, calls⟩ := made
      cases result <;> rfl

theorem loggedMkdir_erase (h : Heap) (parent : Addr) (name : Name) (flags : BitVec 32) (g : CallGrants) :
    (h.loggedMkdir parent name flags g).erase = h.ramfsMkdir parent name flags (g.plain (fsNodeTypeDirectory ||| flags)) := by
  simp only [loggedMkdir, ramfsMkdir, Option.bind_eq_bind, Result.erase, Option.map_bind, Function.comp_def]
  refine Option.bind_congr fun made _ => ?_
  obtain ⟨chain, s⟩ := made
  cases chain with
  | none => rfl
  | some chain =>
      have add := loggedAddEntry_erase (h.withDatanodes s) parent name (some chain) (fsNodeTypeDirectory ||| flags) 0#32 g.entry
      refine (Result.erase_after _ _).trans ?_
      simp only [CallGrants.plain, ← add, Result.erase, Option.map_bind, Option.bind_map, Function.comp_def]
      refine Option.bind_congr fun made _ => ?_
      obtain ⟨result, h, calls⟩ := made
      cases result with
      | error err => rfl
      | ok node => exact (Result.erase_after calls _).trans (loggedAddDots_erase h parent node _ g)

/-! ## What a failure leaves -/

/-- Where the call fails, the directory lists what it listed and every block has been given back. -/
def AllOrNothing (h : Heap) (parent : Addr) (r : Result) : Prop :=
  ∀ err h' calls, r = some (.error err, h', calls) → h'.listDirectory parent = h.listDirectory parent ∧ AllFreed calls

def Leaking (r : Result) : Prop := ∃ err h' calls, r = some (.error err, h', calls) ∧ Leaks calls

theorem Leaking.not_allOrNothing (leaking : Leaking r) : ¬ h.AllOrNothing parent r := by
  obtain ⟨err, h', calls, result, leaks⟩ := leaking
  exact fun all => leaks.not_allFreed (all err h' calls result).2

theorem AllOrNothing.of_fails (fails : h.Fails AllFreed r) : h.AllOrNothing parent r := by
  obtain ⟨err, calls, result, all⟩ := fails
  intro err' h' calls' failed
  cases result.symm.trans failed
  exact ⟨rfl, all⟩

theorem AllOrNothing.of_ok {node : FsNode} {h' : Heap} (done : r = some (.ok node, h', calls)) : h.AllOrNothing parent r := by
  intro err h' calls' failed
  cases done.symm.trans failed

theorem Leaks.append {calls more : List HeapCall} (leaks : Leaks calls) (rest : AllFreed more ∨ Leaks more) :
    Leaks (calls ++ more) := by
  rw [Leaks] at leaks ⊢
  rw [freed_append, allocated_append, List.length_append, List.length_append]
  rcases rest with all | more
  · have := all.length_eq
    omega
  · rw [Leaks] at more
    omega

theorem leaks_of_kept {calls : List HeapCall} (none : freed calls = []) (some : 1 ≤ (allocated calls).length) :
    Leaks calls := by
  rw [Leaks, none]
  exact some

theorem leaks_alloc (block : HeapBlock) : Leaks [.alloc block] := Nat.one_pos

theorem Leaking.of_fails (fails : h₁.Fails AllFreed r ∨ h₁.Fails Leaks r) (leaks : Leaks calls) :
    Leaking (r.after calls) := by
  rcases fails with ⟨err, more, result, all⟩ | ⟨err, more, result, some⟩
  · exact ⟨err, h₁, calls ++ more, by rw [result]; rfl, leaks.append (.inl all)⟩
  · exact ⟨err, h₁, calls ++ more, by rw [result]; rfl, leaks.append (.inr some)⟩

theorem Result.of_after {err : FsErr} {h' : Heap} {all : List HeapCall} (failed : r.after calls = some (.error err, h', all)) :
    ∃ more, r = some (.error err, h', more) ∧ all = calls ++ more := by
  obtain ⟨⟨result, h'', more⟩, rfl, same⟩ := Option.map_eq_some_iff.mp failed
  cases same
  exact ⟨more, rfl, rfl⟩

theorem Leaking.after (leaking : Leaking r) (leaks : Leaks calls) : Leaking (r.after calls) := by
  obtain ⟨err, h', more, result, some⟩ := leaking
  exact ⟨err, h', calls ++ more, by rw [result]; rfl, leaks.append (.inr some)⟩

/-! ## The blocks that are granted -/

/-- Blocks that are not in use, each named once. -/
structure Unused (h : Heap) (blocks : List Addr) : Prop where
  unused : ∀ a ∈ blocks, h.ramnode a = none ∧ h.datanode a = none
  apart : blocks.Nodup

variable {given rest : List Addr} {g : EntryGrants} {chain : Addr} {nodes : List Addr} {slots : List Slot} {node : Ramnode}
variable {data : Option Addr} {size : BitVec 32}

theorem Unused.later (unused : h.Unused (given ++ rest))
    (same : ∀ b ∉ given, h.ramnode b = none → h.datanode b = none → h₁.ramnode b = none ∧ h₁.datanode b = none) :
    h₁.Unused rest := by
  obtain ⟨-, apart, disjoint⟩ := List.nodup_append'.mp unused.apart
  refine ⟨fun a member => ?_, apart⟩
  obtain ⟨ramnode, datanode⟩ := unused.unused a (List.mem_append_right given member)
  exact same a (fun both => disjoint both member) ramnode datanode

theorem Unused.fresh (unused : h.Unused (g.blocks ++ rest)) (flags : BitVec 32) : Grants.Fresh (g.grants flags) h := by
  refine ⟨fun a granted => ?_, fun b granted => ?_, fun a b ramnode datanode => ?_⟩
  · refine unused.unused a (List.mem_append_left rest (List.mem_append_left _ ?_))
    exact Option.mem_toList.mpr granted
  · refine unused.unused b (List.mem_append_left rest (List.mem_append_right _ ?_))
    exact Option.mem_toList.mpr granted
  · have apart := (List.nodup_append'.mp (List.nodup_append'.mp unused.apart).1).2.2
    rintro rfl
    exact apart (Option.mem_toList.mpr ramnode) (Option.mem_toList.mpr datanode)

/-- Datanodes are given in blocks that were not in use, and nothing else changes. -/
structure Furnishes (h h₁ : Heap) (given : List Addr) : Prop where
  ramnode : h₁.ramnode = h.ramnode
  datanode : ∀ b ∉ given, h₁.datanode b = h.datanode b

theorem Furnishes.unused (furnishes : h.Furnishes h₁ given) (unused : h.Unused (given ++ rest)) : h₁.Unused rest :=
  unused.later fun b outside ramnode datanode => by
    rw [furnishes.ramnode, furnishes.datanode b outside]
    exact ⟨ramnode, datanode⟩

theorem Furnishes.directory (furnishes : h.Furnishes h₁ given) (unused : h.Unused (given ++ rest))
    (dir : h.Directory chain nodes slots) : h₁.Directory chain nodes slots := by
  refine dir.congr (fun b member => furnishes.datanode b fun isGiven => ?_) fun b _ => by rw [furnishes.ramnode]
  have free := (unused.unused b (List.mem_append_left rest isGiven)).2
  have live := dir.linked.allocated b member
  rw [free] at live
  cases live

-- the first datanode of a new entry
theorem furnishes_first (h : Heap) (d : Addr) (stale : Datanode Entries) :
    h.Furnishes (h.withDatanodes ((h.datanode.put d stale).setNext d none)) [d] := by
  refine ⟨rfl, fun b outside => ?_⟩
  have other : b ≠ d := fun same => outside (List.mem_singleton.mpr same)
  exact (Function.update_of_ne other ..).trans (Function.update_of_ne other ..)

/-! ## The calls -/

section
variable (dir : h.Directory chain nodes slots) (here : h.ramnode parent = some node) (owns : node.data = some chain)
include dir here owns

theorem add_after (furnishes : h.Furnishes h₁ given) (unused : h.Unused (given ++ (g.blocks ++ rest))) (leaks : Leaks calls)
    (name : Name) (data : Option Addr) (flags size : BitVec 32) :
    (¬ (some name ∉ h.names slots ∧ Granted g flags slots) ∧
      Leaking (Result.after calls (h₁.loggedAddEntry parent name data flags size g))) ∨
    ((some name ∉ h.names slots ∧ Granted g flags slots) ∧
      h₁.Added chain nodes slots g (newRamnode (name.take (filenameLimit - 1)) flags size data (g.grants flags))
        (h₁.loggedAddEntry parent name data flags size g)) := by
  have names : h₁.names slots = h.names slots := List.map_congr_left fun b _ => by
    rw [nameOf, nameOf, furnishes.ramnode]
  have fresh := (furnishes.unused unused).fresh flags
  rcases loggedAddEntry_outcome (furnishes.directory unused dir) (by rw [furnishes.ramnode, here]) owns fresh name data size with
    ⟨clean, fails⟩ | ⟨⟨_, _, _, refused⟩, fails⟩ | ⟨granted, added⟩
  · refine .inl ⟨?_, Leaking.of_fails (.inl fails) leaks⟩
    rintro ⟨new, granted⟩
    rcases clean with listed | none | none
    · exact new (names ▸ listed)
    · exact (Option.isSome_iff_ne_none.mp granted.ramnode) none
    · exact (Option.isSome_iff_ne_none.mp granted.lock) none
  · exact .inl ⟨fun all => refused all.2, Leaking.of_fails (.inr fails) leaks⟩
  · rw [names] at granted
    exact .inr ⟨granted, added⟩

theorem allOrNothing_after (furnishes : h.Furnishes h₁ given) (unused : h.Unused (given ++ (g.blocks ++ rest)))
    (leaks : Leaks calls) (name : Name) (data : Option Addr) (flags size : BitVec 32) :
    (Result.after calls (h₁.loggedAddEntry parent name data flags size g)).isSome ∧
    (h.AllOrNothing parent (Result.after calls (h₁.loggedAddEntry parent name data flags size g)) ↔
      some name ∉ h.names slots ∧ Granted g flags slots) := by
  rcases add_after dir here owns furnishes unused leaks name data flags size with ⟨refused, leaking⟩ | ⟨granted, added⟩
  · refine ⟨?_, iff_of_false leaking.not_allOrNothing refused⟩
    obtain ⟨_, _, _, result, -⟩ := leaking
    rw [result]
    rfl
  · obtain ⟨a, h', nodes', more, -, result, -⟩ := added
    rw [result]
    exact ⟨rfl, iff_of_true (.of_ok rfl) granted⟩

theorem allOrNothing_nodeCreate {g : CallGrants} (unused : h.Unused g.blocks) (name : Name) (flags : BitVec 32) :
    (h.loggedNodeCreate parent name flags g).isSome ∧
    (h.AllOrNothing parent (h.loggedNodeCreate parent name flags g) ↔
      g.datanode = none ∨ some name ∉ h.names slots ∧ Granted g.entry (flags ||| fsNodeTypeFile) slots) := by
  cases granted : g.datanode with
  | none =>
      have result : h.loggedNodeCreate parent name flags g = some (.error .notEnoughSpace, h, []) := by
        rw [loggedNodeCreate, granted]
        rfl
      rw [result]
      exact ⟨rfl, iff_of_true (.of_fails ⟨_, _, rfl, allFreed_nil⟩) (.inl rfl)⟩
  | some grant =>
      obtain ⟨d, stale⟩ := grant
      have result : h.loggedNodeCreate parent name flags g = Result.after [.alloc (.rheap d)]
          ((h.withDatanodes ((h.datanode.put d stale).setNext d none)).loggedAddEntry parent name (some d)
            (flags ||| fsNodeTypeFile) 0#32 g.entry) := by
        rw [loggedNodeCreate, granted]
        rfl
      rw [CallGrants.blocks, granted] at unused
      rw [result, or_iff_right (Option.some_ne_none _)]
      exact allOrNothing_after dir here owns (furnishes_first h d stale) unused (leaks_alloc _) name _ _ _

theorem allOrNothing_specialNode {g : CallGrants} (unused : h.Unused g.blocks) (name : Name) (type : BitVec 32) :
    (h.loggedSpecialNode parent name type g).isSome ∧
    (h.AllOrNothing parent (h.loggedSpecialNode parent name type g) ↔
      if fsNodeType type = fsNodeTypePipe then g.datanode = none ∨ some name ∉ h.names slots ∧ Granted g.entry type slots
      else some name ∈ h.names slots ∨ g.entry.ramnode = none ∨ g.entry.lock = none ∨ Granted g.entry type slots) := by
  rw [loggedSpecialNode]
  split_ifs with isPipe
  · cases granted : g.datanode with
    | none =>
        have first : h.datanode.ramfsAllocateDatanodes 1 none [none] = some (none, h.datanode) := rfl
        simp only [first, Option.bind_eq_bind, Option.bind_some]
        exact ⟨rfl, iff_of_true (.of_fails ⟨_, _, rfl, allFreed_nil⟩) (.inl trivial)⟩
    | some grant =>
        obtain ⟨d, stale⟩ := grant
        have first : h.datanode.ramfsAllocateDatanodes 1 none [some (d, stale)] =
          some (some d, (h.datanode.put d stale).setNext d none) := rfl
        rw [CallGrants.blocks, granted] at unused
        simp only [first, Option.bind_eq_bind, Option.bind_some]
        rw [or_iff_right (Option.some_ne_none _)]
        exact allOrNothing_after dir here owns (furnishes_first h d stale) unused (leaks_alloc _) name _ _ _
  · have entry : h.Unused (g.entry.blocks ++ (g.dot.blocks ++ g.dotdot.blocks)) := unused.later fun _ _ ramnode datanode =>
      ⟨ramnode, datanode⟩
    rcases loggedAddEntry_outcome dir here owns (entry.fresh type) name none 0#32 with
      ⟨clean, fails⟩ | ⟨⟨new, ramnode, lock, refused⟩, fails⟩ | ⟨granted, added⟩
    · refine ⟨?_, iff_of_true (.of_fails fails) ?_⟩
      · obtain ⟨_, _, result, -⟩ := fails
        rw [result]
        rfl
      · rcases clean with listed | none | none
        · exact .inl listed
        · exact .inr (.inl none)
        · exact .inr (.inr (.inl none))
    · obtain ⟨err, calls, result, leaks⟩ := fails
      rw [result]
      refine ⟨rfl, iff_of_false (Leaking.not_allOrNothing ⟨_, _, _, rfl, leaks⟩) ?_⟩
      rintro (listed | none | none | granted)
      · exact new listed
      · exact ramnode none
      · exact lock none
      · exact refused granted
    · obtain ⟨a, h', nodes', calls, -, result, -⟩ := added
      rw [result]
      exact ⟨rfl, iff_of_true (.of_ok rfl) (.inr (.inr (.inr granted.2)))⟩

theorem allOrNothing_nodeCopy {g : CopyGrants} {source : FsNode} {target : Ramnode} {l : List Addr}
    (found : h.ramnode source.nodeAddr = some target) (copies : h.datanode.Chain target.data l) (unused : h.Unused g.blocks)
    (name : Name) :
    (h.loggedNodeCopy source parent name g).isSome ∧
    (h.AllOrNothing parent (h.loggedNodeCopy source parent name g) ↔
      (l = [] ∨ g.datanodes.head?.join = none) ∨
      Datanodes.AllGranted g.datanodes l.length ∧ some name ∉ h.names slots ∧ Granted g.entry source.flags slots) := by
  have fresh : h.datanode.Fresh g.datanodes :=
    ⟨fun a member => (unused.unused a (List.mem_append_left _ member)).2, (List.nodup_append'.mp unused.apart).1⟩
  obtain ⟨ret, s, blocks, run, given, frame, empty, every, cut⟩ :=
    Datanodes.copyLoop_spec none copies copies.length_le fresh fun c (isLast : none = some c) => by cases isLast
  have furnishes : h.Furnishes (h.withDatanodes s) (Datanodes.blocksOf g.datanodes) :=
    ⟨rfl, fun b outside => frame b (fun member => outside (given.subset member)) (Option.some_ne_none b).symm⟩
  have entry : h.Unused (Datanodes.blocksOf g.datanodes ++ (g.entry.blocks ++ [])) := by
    rw [List.append_nil]
    exact unused
  cases blocks with
  | nil =>
      have nothing : ret = none := (em _).elim every cut
      have same : s = h.datanode := funext fun b => frame b List.not_mem_nil (Option.some_ne_none b).symm
      have result : h.loggedNodeCopy source parent name g = some (.error .notEnoughSpace, h, []) := by
        simp only [loggedNodeCopy, Datanodes.copyDatanodeChain, found, run, nothing, same, Option.bind_eq_bind, Option.bind_some]
        rfl
      rw [result]
      exact ⟨rfl, iff_of_true (.of_fails ⟨_, _, rfl, allFreed_nil⟩) (.inl (empty.mp rfl))⟩
  | cons b blocks =>
      rw [or_iff_right (mt empty.mpr (List.cons_ne_nil b blocks))]
      have leaks : Leaks ((b :: blocks).map fun b => .alloc (.rheap b)) := by
        rw [Leaks, freed_map_alloc, allocated_map_alloc, List.length_map]
        exact Nat.succ_pos _
      by_cases granted : Datanodes.AllGranted g.datanodes l.length
      · have result : h.loggedNodeCopy source parent name g = Result.after ((b :: blocks).map fun b => .alloc (.rheap b))
            ((h.withDatanodes s).loggedAddEntry parent name (some b) source.flags source.size g.entry) := by
          simp only [loggedNodeCopy, Datanodes.copyDatanodeChain, found, run, every granted, Option.bind_eq_bind,
            Option.bind_some]
          rfl
        rw [result, and_iff_right granted]
        exact allOrNothing_after dir here owns furnishes entry leaks name _ _ _
      · have result : h.loggedNodeCopy source parent name g = some (.error .notEnoughSpace, h.withDatanodes s,
            (b :: blocks).map fun b => .alloc (.rheap b)) := by
          simp only [loggedNodeCopy, Datanodes.copyDatanodeChain, found, run, cut granted, Option.bind_eq_bind, Option.bind_some]
          rfl
        rw [result]
        exact ⟨rfl, iff_of_false (Leaking.not_allOrNothing ⟨_, _, _, rfl, leaks⟩) fun both => granted both.1⟩

end

/-! ### The dots of a directory -/

def NodeGranted (g : EntryGrants) : Prop := g.ramnode.isSome ∧ g.lock.isSome

theorem add_dot (name : Name) (dir : h.Directory chain nodes slots) (here : h.ramnode parent = some node) (owns : node.data = some chain)
    (unused : h.Unused (g.blocks ++ rest)) (new : some name ∉ h.names slots) (space : slots.length < 127) (data : Option Addr) :
    (¬ NodeGranted g ∧ h.Fails AllFreed (h.loggedAddEntry parent name data dotFlags 0#32 g)) ∨
    (NodeGranted g ∧ h.Added chain nodes slots g
      (newRamnode (name.take (filenameLimit - 1)) dotFlags 0#32 data (g.grants dotFlags))
      (h.loggedAddEntry parent name data dotFlags 0#32 g)) := by
  have notPipe : ¬ g.PipeRefused dotFlags := fun refused => absurd refused.1 (by decide)
  have notFull : ¬ Full slots := fun full => by have := full.2; omega
  rcases loggedAddEntry_outcome dir here owns (unused.fresh dotFlags) name data 0#32 with
    ⟨clean, fails⟩ | ⟨⟨_, ramnode, lock, refused⟩, -⟩ | ⟨⟨_, granted⟩, added⟩
  · refine .inl ⟨fun both => ?_, fails⟩
    rcases clean with listed | none | none
    · exact new listed
    · exact (Option.isSome_iff_ne_none.mp both.1) none
    · exact (Option.isSome_iff_ne_none.mp both.2) none
  · exact absurd ⟨Option.isSome_iff_ne_none.mpr ramnode, Option.isSome_iff_ne_none.mpr lock, notPipe, fun full =>
      absurd full notFull⟩ refused
  · exact .inr ⟨⟨granted.ramnode, granted.lock⟩, added⟩

theorem dotdot_ne_dot : dotdot ≠ dot := by
  rw [dots_bytes.1, dots_bytes.2]
  decide

theorem dot_short : dot.take (filenameLimit - 1) = dot := by
  rw [dots_bytes.1]
  rfl

theorem Unused.added {h' : Heap} {a : Addr} {new : Ramnode} {nodes' : List Addr} (unused : h.Unused (g.blocks ++ rest))
    (live : ∀ b ∈ nodes, (h.datanode b).isSome) (ramnode : g.ramnode = some a)
    (adds : Adds h h' a new nodes nodes' g.datanode) : h'.Unused rest := by
  refine unused.later fun b outside free free' => ?_
  rw [EntryGrants.blocks, List.mem_append, not_or] at outside
  constructor
  · rw [adds.ramnode, Function.update_of_ne ?_, free]
    rintro rfl
    exact outside.1 (Option.mem_toList.mpr ramnode)
  · rw [adds.datanode b fun member => ?_, free']
    rcases adds.grown b member with old | granted
    · have := live b old
      rw [free'] at this
      cases this
    · exact outside.2 (Option.mem_toList.mpr granted)

theorem addDots_outcome {g : CallGrants} {d : Addr} (created : FsNode) (here : h.ramnode created.nodeAddr = some node)
    (owns : node.data = some d) (empty : h.datanode d = some ⟨none, noEntries⟩)
    (unused : h.Unused (g.dot.blocks ++ g.dotdot.blocks)) (parent : Addr) :
    ((NodeGranted g.dot ∧ NodeGranted g.dotdot) ∧
      ∃ h' calls, h.loggedAddDots parent created g = some (.ok created, h', calls)) ∨
    (¬ (NodeGranted g.dot ∧ NodeGranted g.dotdot) ∧
      (h.Fails AllFreed (h.loggedAddDots parent created g) ∨ Leaking (h.loggedAddDots parent created g))) := by
  have dir := Recorded.directory_empty empty
  rcases add_dot dot dir here owns unused List.not_mem_nil (by decide) (h.chainOf created.nodeAddr) with
    ⟨refused, fails⟩ | ⟨granted, added⟩
  · obtain ⟨err, calls, result, all⟩ := fails
    refine .inr ⟨fun both => refused both.1, .inl ⟨err, calls, ?_, all⟩⟩
    rw [loggedAddDots, result]
    rfl
  · obtain ⟨a, h', nodes', calls, ramnode, result, none, some, adds, stores⟩ := added
    have free := ((unused.fresh dotFlags).ramnode a ramnode).1
    have dir' := dir.insert stores adds free List.not_mem_nil
    have here' : h'.ramnode created.nodeAddr = .some node := by
      rw [adds.ramnode, Function.update_of_ne ?_, here]
      rintro same
      rw [same, free] at here
      cases here
    have dotListed : h'.names (insertEntry [] a) = [.some dot] := by
      have self := congrFun adds.ramnode a
      rw [Function.update_self] at self
      rw [insertEntry, if_neg List.not_mem_nil, names, List.nil_append, entries_ramnode, entries_nil, List.map_singleton,
        nameOf, self, dot_short]
      rfl
    have new : .some dotdot ∉ h'.names (insertEntry [] a) := by
      rw [dotListed, List.mem_singleton, Option.some.injEq]
      exact dotdot_ne_dot
    have unused' : h'.Unused (g.dotdot.blocks ++ []) := by
      rw [List.append_nil]
      exact unused.added dir.linked.allocated ramnode adds
    have step : ∀ r, h'.loggedAddEntry created.nodeAddr dotdot (h'.chainOf parent) dotFlags 0#32 g.dotdot = r →
        h.loggedAddDots parent created g = Result.after calls (r.bind fun r => match r with
          | (.error err, h, calls) => .some (.error err, h, calls)
          | (.ok _, h, calls) => .some (.ok created, h, calls)) := by
      rintro r rfl
      rw [loggedAddDots, result]
      rfl
    rcases add_dot dotdot dir' here' owns unused' new (by simp [insertEntry]) (h'.chainOf parent) with
      ⟨refused, fails⟩ | ⟨granted', added⟩
    · obtain ⟨err, more, result', all⟩ := fails
      refine .inr ⟨fun both => refused both.2, .inr ?_⟩
      rw [step _ result']
      exact .of_fails (.inl ⟨err, more, rfl, all⟩) (leaks_of_kept none some)
    · obtain ⟨b, h'', nodes'', more, -, result', -⟩ := added
      refine .inl ⟨⟨granted, granted'⟩, h'', calls ++ more, ?_⟩
      rw [step _ result']
      rfl

theorem allOrNothing_mkdir {g : CallGrants} (dir : h.Directory chain nodes slots) (here : h.ramnode parent = some node)
    (owns : node.data = some chain) (unused : h.Unused g.blocks)
    (isDirectory : fsNodeType (fsNodeTypeDirectory ||| flags) = fsNodeTypeDirectory) (name : Name) :
    (h.loggedMkdir parent name flags g).isSome ∧
    (h.AllOrNothing parent (h.loggedMkdir parent name flags g) ↔
      g.datanode = none ∨ (some name ∉ h.names slots ∧ Granted g.entry (fsNodeTypeDirectory ||| flags) slots) ∧
        NodeGranted g.dot ∧ NodeGranted g.dotdot) := by
  cases granted : g.datanode with
  | none =>
      have result : h.loggedMkdir parent name flags g = some (.error .notEnoughSpace, h, []) := by
        rw [loggedMkdir, granted]
        rfl
      rw [result]
      exact ⟨rfl, iff_of_true (.of_fails ⟨_, _, rfl, allFreed_nil⟩) (.inl rfl)⟩
  | some grant =>
      obtain ⟨d, stale⟩ := grant
      generalize first : (h.datanode.put d ⟨stale.next, noEntries⟩).setNext d none = s
      have furnishes : h.Furnishes (h.withDatanodes s) [d] := first ▸ furnishes_first h d ⟨stale.next, noEntries⟩
      have cleared : s d = some ⟨none, noEntries⟩ := by simp [← first, Datanodes.setNext, Datanodes.put]
      have step : ∀ {r}, (h.withDatanodes s).loggedAddEntry parent name (some d) (fsNodeTypeDirectory ||| flags) 0#32
          g.entry = r → h.loggedMkdir parent name flags g = Result.after [.alloc (.rheap d)] (r.bind fun r => match r with
            | (.error err, h, calls) => some (.error err, h, calls)
            | (.ok created, h, calls) => Result.after calls (h.loggedAddDots parent created g)) := by
        rintro r rfl
        rw [loggedMkdir, granted, ← first]
        rfl
      rw [CallGrants.blocks, granted] at unused
      rw [or_iff_right (Option.some_ne_none _)]
      rcases add_after dir here owns furnishes unused (leaks_alloc (.rheap d)) name (some d)
          (fsNodeTypeDirectory ||| flags) 0#32 with ⟨refused, leaking⟩ | ⟨entry, added⟩
      · obtain ⟨err, h', all, result, leaks⟩ := leaking
        obtain ⟨more, failed, rfl⟩ := Result.of_after result
        rw [step failed]
        exact ⟨rfl, iff_of_false (Leaking.not_allOrNothing ⟨err, h', _, rfl, leaks⟩) fun all => refused all.1⟩
      · obtain ⟨a, h', nodes', calls, ramnode, result, none, some, adds, -⟩ := added
        have points : (newRamnode (name.take (filenameLimit - 1)) (fsNodeTypeDirectory ||| flags) 0#32 (.some d)
            (g.entry.grants (fsNodeTypeDirectory ||| flags))).data = .some d := by
          rw [newRamnode, isDirectory]
          rfl
        generalize newRamnode (name.take (filenameLimit - 1)) (fsNodeTypeDirectory ||| flags) 0#32 (.some d)
          (g.entry.grants (fsNodeTypeDirectory ||| flags)) = new at result adds points
        have made := congrFun adds.ramnode a
        rw [Function.update_self] at made
        have empty : h'.datanode d = .some ⟨Option.none, noEntries⟩ := by
          rw [adds.datanode d fun member => ?_]
          · exact cleared
          obtain ⟨free, apart⟩ := unused
          rcases adds.grown d member with old | grant
          · have live := dir.linked.allocated d old
            rw [(free d List.mem_cons_self).2] at live
            cases live
          · have outside : d ∉ g.entry.blocks ++ (g.dot.blocks ++ g.dotdot.blocks) := (List.nodup_cons.mp apart).1
            exact outside (List.mem_append_left _ (List.mem_append_right _ (Option.mem_toList.mpr grant)))
        have later := (furnishes.unused unused).added (furnishes.directory unused dir).linked.allocated ramnode adds
        have leaks := leaks_of_kept none some
        rw [step result, and_iff_right entry]
        rcases addDots_outcome (toFsNode a new) made points empty later parent with
          ⟨both, h'', more, done⟩ | ⟨refused, failure⟩
        · have whole : Result.after calls (h'.loggedAddDots parent (toFsNode a new) g) =
              .some (.ok (toFsNode a new), h'', calls ++ more) := by
            rw [done]
            rfl
          simp only [Option.bind_some, whole]
          exact ⟨rfl, iff_of_true (.of_ok rfl) both⟩
        · have leaking : Leaking (Result.after [.alloc (.rheap d)] (Result.after calls
              (h'.loggedAddDots parent (toFsNode a new) g))) := by
            refine Leaking.after ?_ (leaks_alloc _)
            exact failure.elim (fun fails => .of_fails (.inl fails) leaks) fun leaking => leaking.after leaks
          refine ⟨?_, iff_of_false leaking.not_allOrNothing refused⟩
          obtain ⟨_, _, _, failed, -⟩ := leaking
          exact Option.isSome_iff_exists.mpr ⟨_, failed⟩

/-- Where the first datanode of a new entry is refused nothing is left behind, and after it a call that does not succeed
leaks: an entry that exists, a refused ramnode or a refused semaphore is an error that gives back no datanode. Without a
datanode, only a refused semaphore of a pipe or a refused datanode of the directory leaves something behind. -/
theorem creation_all_or_nothing {g : CallGrants} {c : CopyGrants} {target : Ramnode} {l : List Addr} (source : FsNode)
    (dir : h.Directory chain nodes slots) (here : h.ramnode parent = some node) (owns : node.data = some chain)
    (unused : h.Unused g.blocks) (found : h.ramnode source.nodeAddr = some target) (copies : h.datanode.Chain target.data l)
    (unused' : h.Unused c.blocks) (name : Name) (flags type : BitVec 32) :
    ((h.loggedNodeCreate parent name flags g).isSome ∧
      (h.AllOrNothing parent (h.loggedNodeCreate parent name flags g) ↔
        g.datanode = none ∨ some name ∉ h.names slots ∧ Granted g.entry (flags ||| fsNodeTypeFile) slots)) ∧
    ((h.loggedSpecialNode parent name type g).isSome ∧
      (h.AllOrNothing parent (h.loggedSpecialNode parent name type g) ↔
        if fsNodeType type = fsNodeTypePipe then g.datanode = none ∨ some name ∉ h.names slots ∧ Granted g.entry type slots
        else some name ∈ h.names slots ∨ g.entry.ramnode = none ∨ g.entry.lock = none ∨ Granted g.entry type slots)) ∧
    (fsNodeType (fsNodeTypeDirectory ||| flags) = fsNodeTypeDirectory → (h.loggedMkdir parent name flags g).isSome ∧
      (h.AllOrNothing parent (h.loggedMkdir parent name flags g) ↔
        g.datanode = none ∨ (some name ∉ h.names slots ∧ Granted g.entry (fsNodeTypeDirectory ||| flags) slots) ∧
          NodeGranted g.dot ∧ NodeGranted g.dotdot)) ∧
    ((h.loggedNodeCopy source parent name c).isSome ∧
      (h.AllOrNothing parent (h.loggedNodeCopy source parent name c) ↔
        (l = [] ∨ c.datanodes.head?.join = none) ∨
        Datanodes.AllGranted c.datanodes l.length ∧ some name ∉ h.names slots ∧ Granted c.entry source.flags slots)) :=
  ⟨allOrNothing_nodeCreate dir here owns unused name flags, allOrNothing_specialNode dir here owns unused name type,
    fun isDirectory => allOrNothing_mkdir dir here owns unused isDirectory name,
    allOrNothing_nodeCopy dir here owns found copies unused' name⟩

/-! ## A new root directory -/

def rootHeap : Heap := (Recorded.ramfsInit 10 20).heap
def rootNode : Ramnode := ⟨Recorded.slash, fsNodeTypeDirectory, 0#32, some 20⟩

theorem rootHeap_node : rootHeap.ramnode 10 = some rootNode := by
  simp [rootHeap, Recorded.ramfsInit, rootNode]

theorem rootHeap_directory : rootHeap.Directory 20 [20] [] :=
  Recorded.directory_empty (by simp [rootHeap, Recorded.ramfsInit, Datanodes.put])

theorem rootHeap_unused {blocks : List Addr} (other : ∀ a ∈ blocks, a ≠ 10 ∧ a ≠ 20) (apart : blocks.Nodup) :
    rootHeap.Unused blocks := by
  refine ⟨fun a member => ?_, apart⟩
  obtain ⟨notRoot, notChain⟩ := other a member
  simp [rootHeap, Recorded.ramfsInit, Datanodes.put, notRoot, notChain]

def allGrants (a : Addr) : EntryGrants := ⟨some a, none, some 1, some 2, some 3, none⟩
def noLock (a : Addr) : EntryGrants := ⟨some a, none, none, none, none, none⟩

def rootSource : FsNode := toFsNode 10 rootNode
def callGrants : CallGrants := ⟨some (30, ⟨none, noEntries⟩), allGrants 31, allGrants 32, allGrants 33⟩
def lockRefused : CallGrants := ⟨some (30, ⟨none, noEntries⟩), noLock 31, noLock 32, noLock 33⟩
def copyGrants : CopyGrants := ⟨[some (30, ⟨none, noEntries⟩)], allGrants 31⟩

theorem callGrants_unused : rootHeap.Unused callGrants.blocks := by
  refine rootHeap_unused ?_ ?_ <;> simp [CallGrants.blocks, callGrants, EntryGrants.blocks, allGrants]

theorem lockRefused_unused : rootHeap.Unused lockRefused.blocks := by
  refine rootHeap_unused ?_ ?_ <;> simp [CallGrants.blocks, lockRefused, EntryGrants.blocks, noLock]

theorem copyGrants_unused : rootHeap.Unused copyGrants.blocks := by
  refine rootHeap_unused ?_ ?_ <;> simp [CopyGrants.blocks, copyGrants, EntryGrants.blocks, allGrants, Datanodes.blocksOf]

theorem creation_all_or_nothing_root :
    rootHeap.AllOrNothing 10 (rootHeap.loggedMkdir 10 [97] 0#32 callGrants) ∧
    rootHeap.AllOrNothing 10 (rootHeap.loggedNodeCopy rootSource 10 [97] copyGrants) := by
  have copies : rootHeap.datanode.Chain rootNode.data [20] := rootHeap_directory.linked
  have law := creation_all_or_nothing rootSource rootHeap_directory rootHeap_node rfl callGrants_unused
    rootHeap_node copies copyGrants_unused [97] 0#32 fsNodeTypePipe
  have notFull : ¬ Full [] := fun full => absurd full.2 (by decide)
  have granted : ∀ flags, fsNodeType flags = fsNodeTypeDirectory → Granted (allGrants 31) flags [] := fun flags isDirectory =>
    ⟨rfl, rfl, fun refused => absurd (refused.1.symm.trans isDirectory) (by decide), fun full => absurd full notFull⟩
  refine ⟨(law.2.2.1 (by decide)).2.mpr (.inr ⟨⟨List.not_mem_nil, granted _ (by decide)⟩, ⟨rfl, rfl⟩, ⟨rfl, rfl⟩⟩),
    law.2.2.2.2.mpr (.inr ⟨fun i inside => ?_, List.not_mem_nil, granted _ (by decide)⟩)⟩
  obtain rfl : i = 0 := Nat.lt_one_iff.mp inside
  rfl

/-- The lock of the new node is refused, and the datanode that was obtained for it stays. -/
theorem nodeCreate_leaks : ¬ rootHeap.AllOrNothing 10 (rootHeap.loggedNodeCreate 10 [97] 0#32 lockRefused) := by
  rw [(allOrNothing_nodeCreate rootHeap_directory rootHeap_node rfl lockRefused_unused [97] 0#32).2]
  rintro (none | ⟨-, granted⟩)
  · cases none
  · cases granted.lock

end Heap
end Kerosene.Ramfs
