import Kerosene.Ramfs.DirectoryReads

/-!
# What the directory calls do to the slots
-/

namespace Kerosene.Ramfs.Heap
open Lib
variable {h h' : Heap} {chain a : Addr} {nodes : List Addr} {slots : List Slot} {k : Nat}

/-! ## Writing one slot -/

theorem Stores.of_ramnodes {k : Heap} (stores : h.Stores chain nodes slots) (same : k.datanode = h.datanode) :
    k.Stores chain nodes slots := by
  refine ⟨same ▸ stores.linked, ?_, stores.noEnd, stores.count⟩
  rw [← stores.words]
  congr 2
  funext b
  rw [row, row, same]

theorem Holds.stores {words : List Slot} (holds : h.Holds chain nodes words)
    (split : words = slots ++ List.replicate (nodes.length * 128 - slots.length) .endEntry)
    (noEnd : .endEntry ∉ slots) (count : nodes.length = slots.length / 128 + 1) : h.Stores chain nodes slots :=
  ⟨holds.linked, holds.words.trans split, noEnd, count⟩

section Write
variable (stores : h.Stores chain nodes slots) {slot : Slot}
include stores

theorem Stores.set {e : Slot} (inside : k < slots.length) (other : e ≠ .endEntry) :
    (h.setEntry (nodeOf nodes k) (k % 128) e).Stores chain nodes (slots.set k e) := by
  have count := stores.count
  refine (stores.holds.setEntry (by omega) e).stores ?_ (fun member => ?_) (by rw [List.length_set, count])
  · rw [List.set_append_left _ _ inside, List.length_set]
  · rcases List.mem_or_eq_of_mem_set member with old | new
    · exact stores.noEnd old
    · exact other new.symm

theorem Stores.setEnd (outside : slots.length ≤ k) (inside : k < nodes.length * 128) :
    (h.setEntry (nodeOf nodes k) (k % 128) .endEntry).Stores chain nodes slots := by
  refine (stores.holds.setEntry inside _).stores ?_ stores.noEnd stores.count
  rw [List.set_append_right _ _ outside, List.set_replicate_self]

theorem Stores.push {e : Slot} (space : slots.length % 128 < 127) (other : e ≠ .endEntry) :
    (h.setEntry (nodeOf nodes slots.length) (slots.length % 128) e).Stores chain nodes (slots ++ [e]) := by
  have count := stores.count
  have length : (slots ++ [e]).length = slots.length + 1 := by simp
  refine (stores.holds.setEntry (by omega) e).stores ?_ ?_ (by omega)
  · rw [List.set_append_right _ _ le_rfl, Nat.sub_self, length,
      show nodes.length * 128 - slots.length = nodes.length * 128 - (slots.length + 1) + 1 by omega,
      List.replicate_succ, List.set_cons_zero, List.append_assoc, List.singleton_append]
  · simp [stores.noEnd, Ne.symm other]

end Write

theorem Stores.pop {slot : Slot} (stores : h.Stores chain nodes (slots ++ [slot])) (space : slots.length % 128 < 127) :
    (h.setEntry (nodeOf nodes slots.length) (slots.length % 128) .endEntry).Stores chain nodes slots := by
  have count := stores.count
  have length : (slots ++ [slot]).length = slots.length + 1 := by simp
  rw [length] at count
  refine (stores.holds.setEntry (by omega) _).stores ?_ (fun member => stores.noEnd (by simp [member])) (by omega)
  rw [length, List.append_assoc, List.singleton_append, List.set_append_right _ _ le_rfl, Nat.sub_self,
    List.set_cons_zero, ← List.replicate_succ]
  congr 2
  omega

-- a cleared datanode behind the last one
def grow (h : Heap) (last b : Addr) : Heap :=
  h.withDatanodes ((h.datanode.put b ⟨none, noEntries⟩).setNext last (some b))

section Grow
variable {last b : Addr} {left : List Addr}

theorem datanode_grow_new (other : last ≠ b) : (h.grow last b).datanode b = some ⟨none, noEntries⟩ := by
  simp [grow, withDatanodes, Datanodes.setNext, Datanodes.put, other.symm]

theorem datanode_grow_last (other : last ≠ b) :
    (h.grow last b).datanode last = (h.datanode last).map fun node => ⟨some b, node.data⟩ := by
  simp [grow, withDatanodes, Datanodes.setNext, Datanodes.put, other]

theorem datanode_grow_of_ne {c : Addr} (notLast : c ≠ last) (notNew : c ≠ b) :
    (h.grow last b).datanode c = h.datanode c := by
  simp [grow, withDatanodes, Datanodes.setNext, Datanodes.put, notLast, notNew]

theorem Holds.grow {words : List Slot} (holds : h.Holds chain (left ++ [last]) words) (fresh : h.datanode b = none) :
    (h.grow last b).Holds chain (left ++ [last] ++ [b]) (words ++ List.replicate 128 .endEntry) := by
  have outside : ∀ c ∈ left ++ [last], c ≠ b := by
    rintro c member rfl
    have := holds.linked.allocated c member
    rw [fresh] at this
    cases this
  have notLast : ∀ c ∈ left, c ≠ last := by
    rintro c member rfl
    exact (List.nodup_append'.mp holds.linked.nodup).2.2 member List.mem_cons_self
  have other : last ≠ b := outside last (by simp)
  have kept : ∀ c ∈ left, (h.grow last b).datanode c = h.datanode c := fun c member =>
    datanode_grow_of_ne (notLast c member) (outside c (by simp [member]))
  have rowLast : (h.grow last b).row last = h.row last := by
    rw [row, row, datanode_grow_last other]
    cases h.datanode last <;> rfl
  obtain ⟨node, here⟩ := Option.isSome_iff_exists.mp (holds.linked.allocated last (by simp))
  refine ⟨holds.linked.extend kept (by rw [datanode_grow_last other, here]; rfl) rfl (datanode_grow_new other) rfl, ?_⟩
  have rowNew : (h.grow last b).row b = List.replicate 128 .endEntry := by
    rw [row, datanode_grow_new other]
    exact Vector.toList_replicate
  have rows : left.map (h.grow last b).row = left.map h.row := by
    refine List.map_congr_left fun c member => ?_
    rw [row, row, kept c member]
  rw [← holds.words]
  simp [rows, rowLast, rowNew]

end Grow

/-! ## An entry goes into the first hole -/

def insertEntry (slots : List Slot) (a : Addr) : List Slot :=
  if .emptyEntry ∈ slots then slots.set (hole slots) (.ramnode a) else slots ++ [.ramnode a]

theorem hole_split (found : Slot.emptyEntry ∈ slots) :
    slots = slots.take (hole slots) ++ .emptyEntry :: slots.drop (hole slots + 1) := by
  have bound : hole slots < slots.length := List.idxOf_lt_length_iff.mpr found
  have here : slots[hole slots] = .emptyEntry := List.getElem_idxOf bound
  rw [← here, List.getElem_cons_drop, List.take_append_drop]

theorem insertEntry_split (slots : List Slot) (a : Addr) :
    ∃ left middle right, slots = left ++ middle ++ right ∧ insertEntry slots a = left ++ .ramnode a :: right ∧
      (middle = [.emptyEntry] ∨ middle = [] ∧ right = []) := by
  by_cases found : Slot.emptyEntry ∈ slots
  · refine ⟨slots.take (hole slots), [.emptyEntry], slots.drop (hole slots + 1), ?_, ?_, .inl rfl⟩
    · rw [List.append_assoc]
      exact hole_split found
    · have bound : hole slots < slots.length := List.idxOf_lt_length_iff.mpr found
      rw [insertEntry, if_pos found, List.set_eq_take_append_cons_drop, if_pos bound]
  · exact ⟨slots, [], [], by simp, by rw [insertEntry, if_neg found], .inr ⟨rfl, rfl⟩⟩

theorem entries_insertEntry (slots : List Slot) (a : Addr) :
    ∃ left right, entries slots = left ++ right ∧ entries (insertEntry slots a) = left ++ a :: right := by
  obtain ⟨left, middle, right, split, inserted, empty⟩ := insertEntry_split slots a
  refine ⟨entries left, entries right, ?_, by rw [inserted, entries_append, entries_ramnode]⟩
  rw [split]
  rcases empty with rfl | ⟨rfl, rfl⟩ <;> simp

theorem trim_eq_self : trim slots = slots ↔ slots.getLast? ≠ some .emptyEntry := by
  induction slots using List.reverseRecOn with
  | nil => simp [trim]
  | append_singleton slots slot =>
      by_cases empty : slot = .emptyEntry
      · subst empty
        rw [trim_append_empty]
        have := trim_length_le slots
        refine ⟨fun same => ?_, fun last => absurd (by simp) last⟩
        have := congrArg List.length same
        simp at this
        omega
      · simp [trim, List.rdropWhile_concat_neg, empty]

theorem trim_insertEntry (trimmed : trim slots = slots) (a : Addr) :
    trim (insertEntry slots a) = insertEntry slots a := by
  obtain ⟨left, middle, right, split, inserted, empty⟩ := insertEntry_split slots a
  rw [trim_eq_self] at trimmed ⊢
  rw [inserted]
  cases right using List.reverseRecOn with
  | nil => simp
  | append_singleton right slot =>
      rw [split, ← List.append_assoc, List.getLast?_concat] at trimmed
      rwa [← List.cons_append, ← List.append_assoc, List.getLast?_concat]

/-- What a call that stores ramnode `a` leaves alone. -/
structure Adds (h h' : Heap) (a : Addr) (node : Ramnode) (nodes nodes' : List Addr) (grant : Option Addr) : Prop where
  ramnode : h'.ramnode = Function.update h.ramnode a (some node)
  datanode : ∀ b ∉ nodes', h'.datanode b = h.datanode b
  grown : ∀ b ∈ nodes', b ∈ nodes ∨ grant = some b

theorem Directory.insert {node : Ramnode} {nodes' : List Addr} {grant : Option Addr}
    (dir : h.Directory chain nodes slots) (stores : h'.Stores chain nodes' (insertEntry slots a))
    (adds : Adds h h' a node nodes nodes' grant) (fresh : h.ramnode a = none)
    (new : some node.name ∉ h.names slots) : h'.Directory chain nodes' (insertEntry slots a) := by
  obtain ⟨left, right, split, inserted⟩ := entries_insertEntry slots a
  have old : ∀ b ∈ entries slots, h'.ramnode b = h.ramnode b := by
    intro b member
    rw [adds.ramnode]
    refine Function.update_of_ne ?_ ..
    rintro rfl
    obtain ⟨_, here⟩ := dir.live b member
    rw [fresh] at here
    cases here
  have here : h'.ramnode a = some node := by rw [adds.ramnode, Function.update_self]
  refine ⟨stores, trim_insertEntry dir.trimmed a, fun b member => ?_, ?_⟩
  · rw [inserted, List.mem_append, List.mem_cons] at member
    rcases member with inLeft | rfl | inRight
    · rw [old b (by simp [split, inLeft])]
      exact dir.live b (by simp [split, inLeft])
    · exact ⟨node, here⟩
    · rw [old b (by simp [split, inRight])]
      exact dir.live b (by simp [split, inRight])
  · have same : ∀ l : List Addr, (∀ b ∈ l, b ∈ entries slots) → l.map h'.nameOf = l.map h.nameOf := by
      intro l inside
      refine List.map_congr_left fun b member => ?_
      rw [nameOf, nameOf, old b (inside b member)]
    have distinct := dir.distinct
    rw [names, split, List.map_append] at distinct new
    rw [names, inserted, List.map_append, List.map_cons, same left (by simp [split]; tauto),
      same right (by simp [split]; tauto), nameOf, here]
    exact (List.nodup_middle).mpr (List.nodup_cons.mpr ⟨new, distinct⟩)

theorem Directory.walk_add (dir : h.Directory chain nodes slots) (name : Name) :
    walkEntries h (h.addRound name) chainFuel chain none = some (if some name ∈ h.names slots then .inr ()
      else .inl (nodeOf nodes slots.length, some (nodeOf nodes (hole slots), hole slots % 128))) := by
  have scan := scan_add (l := nodes) (p := []) (n := name) dir.noEnd dir.live
  rw [List.length_nil, List.nil_append, show firstEmpty nodes [] = none from rfl] at scan
  rw [dir.toStores.walk (leaves_add h name nodes), scan]
  split_ifs <;> rfl

theorem hole_le (slots : List Slot) : hole slots ≤ slots.length := List.idxOf_le_length

theorem Directory.entry_hole (dir : h.Directory chain nodes slots) :
    ∃ node, h.datanode (nodeOf nodes (hole slots)) = some node ∧
      node.data.toList[hole slots % 128]? = some (if .emptyEntry ∈ slots then .emptyEntry else .endEntry) := by
  have count := dir.count
  have short := hole_le slots
  have inside : hole slots < nodes.length * 128 := by omega
  obtain ⟨node, here, data⟩ := dir.holds.node inside
  refine ⟨node, here, ?_⟩
  rw [data, dir.holds.getElem? inside]
  split_ifs with found
  · have bound : hole slots < slots.length := List.idxOf_lt_length_iff.mpr found
    rw [List.getElem?_append_left bound, List.getElem?_eq_getElem bound]
    exact congrArg some (List.getElem_idxOf bound)
  · have last : hole slots = slots.length := List.idxOf_eq_length found
    rw [last, List.getElem?_append_right le_rfl, Nat.sub_self, List.getElem?_replicate, if_pos (by omega)]

theorem createNewNode_eq {name : Name} (short : name.length < filenameLimit) (h : Heap) (flags size : BitVec 32)
    (data : Option Addr) (grants : Grants) : h.createNewNode name flags size data grants =
      if grants.semaphores then grants.ramnode.map fun a => (a, h.putRamnode a (newRamnode name flags size data grants))
      else none := by
  have whole : name.take (filenameLimit - 1) = name := List.take_of_length_le (by omega)
  rw [createNewNode, whole]
  cases grants.ramnode <;> cases grants.semaphores <;> rfl

section Add
variable {parent : Addr} {node : Ramnode} {name : Name} {data : Option Addr} {flags size : BitVec 32} {grants : Grants}

/-- `rmalloc` answers with blocks that are not in use, and two different ones in one call. -/
structure Grants.Fresh (grants : Grants) (h : Heap) : Prop where
  ramnode : ∀ a, grants.ramnode = some a → h.ramnode a = none ∧ h.datanode a = none
  datanode : ∀ b, grants.datanode = some b → h.ramnode b = none ∧ h.datanode b = none
  apart : ∀ a b, grants.ramnode = some a → grants.datanode = some b → a ≠ b

theorem rfreeRamnode_putRamnode (fresh : h.ramnode a = none) (new : Ramnode) :
    (h.putRamnode a new).rfreeRamnode a = h := by
  have same : Function.update (Function.update h.ramnode a (some new)) a none = h.ramnode := by
    rw [Function.update_idem, ← fresh, Function.update_eq_self]
  rw [rfreeRamnode, putRamnode, same]

theorem adds_setEntry {new : Ramnode} {grant : Option Addr} {b : Addr} {nodes' : List Addr}
    (adds : Adds h h' a new nodes nodes' grant) (member : b ∈ nodes') (entryId : Nat) (slot : Slot) :
    Adds h (h'.setEntry b entryId slot) a new nodes nodes' grant := by
  refine ⟨adds.ramnode, fun c outside => ?_, adds.grown⟩
  rw [(within_setEntry member h' entryId slot).datanode c outside]
  exact adds.datanode c outside

theorem adds_putRamnode (h : Heap) (a : Addr) (new : Ramnode) (nodes : List Addr) (grant : Option Addr) :
    Adds h (h.putRamnode a new) a new nodes nodes grant := ⟨rfl, fun _ _ => rfl, fun _ member => .inl member⟩

theorem Stores.split_last (stores : h.Stores chain nodes slots) :
    nodes = nodes.take (slots.length / 128) ++ [nodeOf nodes slots.length] := by
  have count := stores.count
  have position := nodeOf_getElem? (l := nodes) (k := slots.length) (by omega)
  have all : nodes.take (slots.length / 128 + 1) = nodes := List.take_of_length_le (by omega)
  rw [List.take_add_one, position] at all
  exact all.symm

theorem Stores.grow {b : Addr} (stores : h.Stores chain nodes slots) (full : slots.length % 128 = 127)
    (fresh : h.datanode b = none) (a : Addr) :
    ((h.grow (nodeOf nodes slots.length) b).setEntry (nodeOf nodes slots.length) (slots.length % 128)
      (.ramnode a)).Stores chain (nodes ++ [b]) (slots ++ [.ramnode a]) := by
  have count := stores.count
  have length : (slots ++ [Slot.ramnode a]).length = slots.length + 1 := by simp
  have long : (nodes ++ [b]).length = nodes.length + 1 := by simp
  have holds := stores.holds
  rw [stores.split_last] at holds
  have grown := holds.grow fresh
  rw [← stores.split_last] at grown
  have place : nodeOf (nodes ++ [b]) slots.length = nodeOf nodes slots.length := by
    rw [nodeOf, nodeOf, List.getD_eq_getElem?_getD, List.getD_eq_getElem?_getD, List.getElem?_append_left (by omega)]
  have written := grown.setEntry (k := slots.length) (by omega) (.ramnode a)
  rw [place] at written
  refine written.stores ?_ (by simp [stores.noEnd]) (by omega)
  rw [List.append_assoc, List.replicate_append_replicate, List.set_append_right _ _ le_rfl, Nat.sub_self, length,
    long, show nodes.length * 128 - slots.length + 128 = (nodes.length + 1) * 128 - (slots.length + 1) + 1 by omega,
    List.replicate_succ, List.set_cons_zero, List.append_assoc, List.singleton_append]

theorem adds_grow {n : Ramnode} {last b : Addr} (member : last ∈ nodes) (h : Heap) (a : Addr) :
    Adds h ((h.putRamnode a n).grow last b) a n nodes (nodes ++ [b]) (some b) := by
  refine ⟨rfl, fun c outside => ?_, fun c member => ?_⟩
  · rw [List.mem_append, List.mem_singleton, not_or] at outside
    exact datanode_grow_of_ne (by rintro rfl; exact outside.1 member) outside.2
  · rcases List.mem_append.mp member with old | n
    · exact .inl old
    · rw [List.mem_singleton.mp n]
      exact .inr rfl

section Link
variable (stores : h.Stores chain nodes slots) (a : Addr) (new : Ramnode)
include stores

theorem Stores.nodeOf_hole_mem : nodeOf nodes (hole slots) ∈ nodes :=
  nodeOf_mem (by have := hole_le slots; have := stores.count; omega)

theorem Stores.linkHole (empty : Slot.emptyEntry ∈ slots) (grant : Option Addr) :
    Adds h ((h.putRamnode a new).setEntry (nodeOf nodes (hole slots)) (hole slots % 128) (.ramnode a)) a new nodes nodes grant ∧
    ((h.putRamnode a new).setEntry (nodeOf nodes (hole slots)) (hole slots % 128) (.ramnode a)).Stores chain nodes
      (insertEntry slots a) := by
  refine ⟨adds_setEntry (adds_putRamnode h a new nodes grant) stores.nodeOf_hole_mem _ _, ?_⟩
  rw [insertEntry, if_pos empty]
  exact (stores.of_ramnodes (k := h.putRamnode a new) rfl).set (List.idxOf_lt_length_iff.mpr empty) (by simp)

variable (full : Slot.emptyEntry ∉ slots)
include full

theorem Stores.linkLast (space : slots.length % 128 < 127) (grant : Option Addr) :
    Adds h (((h.putRamnode a new).setEntry (nodeOf nodes slots.length) (slots.length % 128 + 1) .endEntry).setEntry
      (nodeOf nodes slots.length) (slots.length % 128) (.ramnode a)) a new nodes nodes grant ∧
    (((h.putRamnode a new).setEntry (nodeOf nodes slots.length) (slots.length % 128 + 1) .endEntry).setEntry
      (nodeOf nodes slots.length) (slots.length % 128) (.ramnode a)).Stores chain nodes (insertEntry slots a) := by
  have count := stores.count
  have member : nodeOf nodes slots.length ∈ nodes := nodeOf_mem (by omega)
  have next : nodeOf nodes (slots.length + 1) = nodeOf nodes slots.length := by
    rw [nodeOf, nodeOf, show (slots.length + 1) / 128 = slots.length / 128 by omega]
  have cleared := (stores.of_ramnodes (k := h.putRamnode a new) rfl).setEnd (k := slots.length + 1) (by omega) (by omega)
  rw [next, show (slots.length + 1) % 128 = slots.length % 128 + 1 by omega] at cleared
  refine ⟨adds_setEntry (adds_setEntry (adds_putRamnode h a new nodes grant) member _ _) member _ _, ?_⟩
  rw [insertEntry, if_neg full]
  exact cleared.push space (e := .ramnode a) (by simp)

theorem Stores.linkGrown {b : Addr} (space : ¬ slots.length % 128 < 127) (fresh : h.datanode b = none) :
    Adds h (((h.putRamnode a new).grow (nodeOf nodes slots.length) b).setEntry (nodeOf nodes slots.length) (slots.length % 128)
      (.ramnode a)) a new nodes (nodes ++ [b]) (some b) ∧
    (((h.putRamnode a new).grow (nodeOf nodes slots.length) b).setEntry (nodeOf nodes slots.length) (slots.length % 128)
      (.ramnode a)).Stores chain (nodes ++ [b]) (insertEntry slots a) := by
  have count := stores.count
  have member : nodeOf nodes slots.length ∈ nodes := nodeOf_mem (by omega)
  refine ⟨adds_setEntry (adds_grow (n := new) (b := b) member h a) (List.mem_append_left [b] member) _ _, ?_⟩
  rw [insertEntry, if_neg full]
  exact (stores.of_ramnodes (k := h.putRamnode a new) rfl).grow (by omega) fresh a

end Link

theorem ramfsAddEntry_spec {n : BitVec 32} {f : BitVec 32} {d : Option Addr} (dir : h.Directory chain nodes slots)
    (here : h.ramnode parent = some node)
    (owns : node.data = some chain) (short : name.length < filenameLimit) (fresh : Grants.Fresh grants h) :
    (some name ∈ h.names slots ∧ h.ramfsAddEntry parent name d f n grants = some (.error .entryExisted, h)) ∨
    (some name ∉ h.names slots ∧ h.ramfsAddEntry parent name d f n grants = some (.error .notEnoughSpace, h)) ∨
    (some name ∉ h.names slots ∧ ∃ a new h' nodes', grants.ramnode = some a ∧ new.name = name ∧
      h.ramfsAddEntry parent name d f n grants = some (.ok (toFsNode a new), h') ∧
      Adds h h' a new nodes nodes' grants.datanode ∧ h'.Directory chain nodes' (insertEntry slots a)) := by
  have walk := dir.walk_add name
  have create := createNewNode_eq short h f n d grants
  by_cases listed : some name ∈ h.names slots
  · rw [if_pos listed] at walk
    refine .inl ⟨listed, ?_⟩
    simp only [ramfsAddEntry, here, owns, walk, Option.bind_eq_bind, Option.bind_some]
    rfl
  rw [if_neg listed] at walk
  right
  cases sems : grants.semaphores with
  | false =>
      rw [sems, if_neg (by decide)] at create
      refine .inl ⟨listed, ?_⟩
      simp only [ramfsAddEntry, here, owns, walk, create, Option.bind_eq_bind, Option.bind_some]
      rfl
  | true =>
  rw [sems, if_pos rfl] at create
  cases granted : grants.ramnode with
  | none =>
      rw [granted, Option.map_none] at create
      refine .inl ⟨listed, ?_⟩
      simp only [ramfsAddEntry, here, owns, walk, create, Option.bind_eq_bind, Option.bind_some]
      rfl
  | some a =>
      rw [granted, Option.map_some] at create
      generalize made : newRamnode name f n d grants = new at create
      have named : new.name = name := by rw [← made]; rfl
      have unused := (fresh.ramnode a granted).1
      have listed' : some new.name ∉ h.names slots := by rwa [named]
      have self : (h.putRamnode a new).ramnode a = some new := Function.update_self ..
      obtain ⟨block, found, entry⟩ := dir.entry_hole
      have found' : (h.putRamnode a new).datanode (nodeOf nodes (hole slots)) = some block := found
      by_cases empty : Slot.emptyEntry ∈ slots
      · rw [if_pos empty] at entry
        obtain ⟨adds, stored⟩ := dir.toStores.linkHole a new empty grants.datanode
        refine .inr ⟨listed, a, new, _, nodes, rfl, named, ?_, adds, dir.insert stored adds unused listed'⟩
        simp only [ramfsAddEntry, here, owns, walk, create, self, found', entry, Option.bind_eq_bind, Option.bind_some,
          reduceCtorEq, if_false]
        rfl
      · have last : hole slots = slots.length := List.idxOf_eq_length empty
        rw [if_neg empty] at entry
        rw [last] at entry found' walk
        by_cases space : slots.length % 128 < 127
        · obtain ⟨adds, stored⟩ := dir.toStores.linkLast a new empty space grants.datanode
          refine .inr ⟨listed, a, new, _, nodes, rfl, named, ?_, adds, dir.insert stored adds unused listed'⟩
          have room : slots.length % 128 < directoryEntryCount - 1 := space
          simp only [ramfsAddEntry, here, owns, walk, create, self, found', entry, Option.bind_eq_bind, Option.bind_some,
            if_true, room]
          rfl
        · have room : ¬ slots.length % 128 < directoryEntryCount - 1 := space
          cases more : grants.datanode with
          | none =>
              refine .inl ⟨listed, ?_⟩
              simp only [ramfsAddEntry, here, owns, walk, create, self, found', entry, Option.bind_eq_bind,
                Option.bind_some, if_true, room, if_false, more]
              rw [rfreeRamnode_putRamnode unused]
              rfl
          | some b =>
              obtain ⟨adds, stored⟩ := dir.toStores.linkGrown a new empty space (fresh.datanode b more).2
              refine .inr ⟨listed, a, new, _, nodes ++ [b], rfl, named, ?_, adds, dir.insert stored adds unused listed'⟩
              simp only [ramfsAddEntry, here, owns, walk, create, self, found', entry, Option.bind_eq_bind,
                Option.bind_some, if_true, room, if_false, more]
              rfl

end Add

/-! ## An entry leaves a hole, or the row ends before it -/

theorem leaves_find (target : Addr) (nodes : List Addr) :
    LeavesAtEnd fun k => findRound target (nodeOf nodes k) (k % 128) := by
  refine ⟨fun k b b' => by simp [findRound], fun k slot b b' other => ?_⟩
  cases slot with
  | endEntry => exact absurd rfl other
  | emptyEntry => simp [findRound]
  | ramnode a =>
      simp only [findRound]
      split_ifs <;> simp

theorem scan_find {target : Addr} {rest : List Slot} {p : Nat} (noEnd : Slot.endEntry ∉ rest) :
    scanEntries (fun k => findRound target (nodeOf nodes k) (k % 128)) (rest ++ [.endEntry]) p () =
      some (if .ramnode target ∈ rest then
        .inr (nodeOf nodes (p + rest.idxOf (.ramnode target)), (p + rest.idxOf (.ramnode target)) % 128)
      else .inl ()) := by
  induction rest generalizing p with
  | nil => rfl
  | cons slot rest ih =>
      rw [List.mem_cons, not_or] at noEnd
      have later := ih (p := p + 1) noEnd.2
      rw [List.cons_append, scanEntries]
      by_cases found : slot = .ramnode target
      · subst found
        simp [findRound]
      · have index : p + (slot :: rest).idxOf (.ramnode target) = p + 1 + rest.idxOf (.ramnode target) := by
          rw [List.idxOf_cons_ne _ found]
          omega
        rw [index]
        simp only [List.mem_cons, Ne.symm found, false_or]
        cases slot with
        | endEntry => exact absurd rfl noEnd.1
        | emptyEntry => exact later
        | ramnode a =>
            have other : a ≠ target := by rintro rfl; exact found rfl
            simp only [findRound, other, if_false]
            exact later

theorem Stores.walk_find (stores : h.Stores chain nodes slots) (target : Addr) :
    walkEntries h (findRound target) chainFuel chain () = some (if .ramnode target ∈ slots then
      .inr (nodeOf nodes (slots.idxOf (.ramnode target)), slots.idxOf (.ramnode target) % 128)
      else .inl (nodeOf nodes slots.length, ())) := by
  rw [stores.walk (leaves_find target nodes), scan_find stores.noEnd, Nat.zero_add]
  split_ifs <;> rfl

theorem Stores.entry_next (stores : h.Stores chain nodes slots) (inside : k < slots.length) (space : k % 128 < 127) :
    ∃ node, h.datanode (nodeOf nodes k) = some node ∧
      (node.data.toList[k % 128 + 1]? = some .endEntry ↔ k + 1 = slots.length) ∧
      (k % 128 ≠ 0 → node.data.toList[k % 128 - 1]? = slots[k - 1]?) := by
  have count := stores.count
  obtain ⟨node, here, data⟩ := stores.holds.node (k := k) (by omega)
  have next : nodeOf nodes (k + 1) = nodeOf nodes k := by rw [nodeOf, nodeOf, show (k + 1) / 128 = k / 128 by omega]
  have after := stores.holds.getElem? (k := k + 1) (by omega)
  rw [next, show (k + 1) % 128 = k % 128 + 1 by omega] at after
  refine ⟨node, here, ?_, fun nonzero => ?_⟩
  · rw [data, after]
    by_cases more : k + 1 < slots.length
    · rw [List.getElem?_append_left more, List.getElem?_eq_getElem more]
      refine ⟨fun same => absurd (List.getElem_mem more) ?_, fun same => by omega⟩
      rw [Option.some.inj same]
      exact stores.noEnd
    · rw [List.getElem?_append_right (by omega), List.getElem?_replicate, if_pos (by omega)]
      exact ⟨fun _ => by omega, fun _ => rfl⟩
  · have previous : nodeOf nodes (k - 1) = nodeOf nodes k := by
      rw [nodeOf, nodeOf, show (k - 1) / 128 = k / 128 by omega]
    have before := stores.holds.getElem? (k := k - 1) (by omega)
    rw [previous, show (k - 1) % 128 = k % 128 - 1 by omega, List.getElem?_append_left (by omega)] at before
    rw [data, before]

theorem dropEntry_spec (stores : h.Stores chain nodes slots) (trimmed : trim slots = slots) (inside : k < slots.length) :
    ∃ h' n, h.dropEntry chain (nodeOf nodes k) (k % 128) = some h' ∧ Within h h' nodes ∧
      h'.Stores chain (nodes.take n) (trim (slots.set k .emptyEntry)) := by
  have count := stores.count
  have member : nodeOf nodes k ∈ nodes := nodeOf_mem (by omega)
  by_cases space : k % 128 < 127
  · obtain ⟨node, here, ends, before⟩ := stores.entry_next inside space
    have room : k % 128 < directoryEntryCount - 1 := space
    by_cases last : k + 1 = slots.length
    · -- the last slot: the row now ends here, or before
      obtain ⟨front, slot, rfl⟩ : ∃ front slot, slots = front ++ [slot] :=
        ⟨_, _, (List.dropLast_append_getLast (by rintro rfl; simp at inside)).symm⟩
      have index : k = front.length := by simpa using last
      subst index
      have popped := stores.pop space
      have within := within_setEntry member h (front.length % 128) .endEntry
      have result : trim ((front ++ [slot]).set front.length .emptyEntry) = trim front := by
        rw [List.set_append_right _ _ le_rfl, Nat.sub_self, List.set_cons_zero, trim_append_empty]
      rw [result]
      simp only [dropEntry, here, Option.bind_eq_bind, Option.bind_some, room, if_true, ends.mpr last]
      by_cases again : front.length % 128 = 0 ∨ node.data.toList[front.length % 128 - 1]? = some .emptyEntry
      · obtain ⟨h', fixed, more, stored⟩ := fixEmptyEntries_spec popped
        exact ⟨h', _, by rw [if_pos again, fixed], within.trans more, stored⟩
      · refine ⟨_, nodes.length, by rw [if_neg again]; rfl, within, ?_⟩
        rw [not_or] at again
        have kept : trim front = front := by
          rw [trim_eq_self, List.getLast?_eq_getElem?, ← List.getElem?_append_left (by omega),
            ← before again.1]
          exact again.2
        rw [kept, List.take_length]
        exact popped
    · have within := within_setEntry member h (k % 128) .emptyEntry
      refine ⟨_, nodes.length, ?_, within, ?_⟩
      · simp only [dropEntry, here, Option.bind_eq_bind, Option.bind_some, room, if_true, mt ends.mp last, if_false]
        rfl
      · have kept : trim (slots.set k .emptyEntry) = slots.set k .emptyEntry := by
          rw [trim_eq_self, List.getLast?_eq_getElem?, List.length_set, List.getElem?_set_ne (by omega),
            ← List.getLast?_eq_getElem?, ← trim_eq_self]
          exact trimmed
        rw [kept, List.take_length]
        exact stores.set inside (by simp)
  · have room : ¬ k % 128 < directoryEntryCount - 1 := space
    obtain ⟨node, here, -⟩ := stores.holds.node (k := k) (by omega)
    have within := within_setEntry member h (k % 128) .emptyEntry
    obtain ⟨h', fixed, more, stored⟩ := fixEmptyEntries_spec (stores.set inside (e := .emptyEntry) (by simp))
    refine ⟨h', _, ?_, within.trans more, stored⟩
    simp only [dropEntry, here, Option.bind_eq_bind, Option.bind_some, room, if_false]
    exact fixed

theorem entries_set_empty (here : slots[k]? = some (.ramnode a)) (nodup : (entries slots).Nodup) :
    entries (slots.set k .emptyEntry) = (entries slots).erase a := by
  obtain ⟨bound, found⟩ := List.getElem?_eq_some_iff.mp here
  have split : slots = slots.take k ++ .ramnode a :: slots.drop (k + 1) := by
    rw [← found, List.getElem_cons_drop, List.take_append_drop]
  have set : slots.set k .emptyEntry = slots.take k ++ .emptyEntry :: slots.drop (k + 1) := by
    rw [List.set_eq_take_append_cons_drop, if_pos bound]
  rw [split, entries_append, entries_ramnode] at nodup
  have outside : a ∉ entries (slots.take k) := fun inside =>
    (List.nodup_append'.mp nodup).2.2 inside List.mem_cons_self
  rw [set, entries_append, entries_empty]
  conv_rhs => rw [split, entries_append, entries_ramnode, List.erase_append_right _ outside, List.erase_cons_head]

theorem Stores.congr (stores : h.Stores chain nodes slots) (same : ∀ b ∈ nodes, h'.datanode b = h.datanode b) :
    h'.Stores chain nodes slots := by
  refine ⟨stores.linked.congr same, ?_, stores.noEnd, stores.count⟩
  rw [← stores.words]
  congr 1
  refine List.map_congr_left fun b member => ?_
  rw [row, row, same b member]

theorem Directory.congr (dir : h.Directory chain nodes slots) (datanodes : ∀ b ∈ nodes, h'.datanode b = h.datanode b)
    (ramnodes : ∀ b ∈ entries slots, h'.ramnode b = h.ramnode b) : h'.Directory chain nodes slots := by
  refine ⟨dir.toStores.congr datanodes, dir.trimmed, fun b member => ?_, ?_⟩
  · rw [ramnodes b member]
    exact dir.live b member
  · have names : h'.names slots = h.names slots := List.map_congr_left fun b member => by
      rw [nameOf, nameOf, ramnodes b member]
    rw [names]
    exact dir.distinct

/-- What a call that drops ramnode `a` and the datanodes `freed` leaves alone. -/
structure Drops (h h' : Heap) (a : Addr) (freed nodes : List Addr) : Prop where
  ramnode : h'.ramnode = Function.update h.ramnode a none
  datanode : ∀ b, b ∉ nodes → b ∉ freed → h'.datanode b = h.datanode b

section Remove
variable {parent : Addr} {node target : Ramnode} {removeNode : FsNode} {removeContent : Bool} {freed : List Addr}

-- the content that goes with an entry
def removedChain (target : Ramnode) (removeContent : Bool) : Option Addr :=
  if (fsNodeType target.flags ≠ fsNodeTypeMemory ∧ fsNodeType target.flags ≠ fsNodeTypeSemaphore) ∧ removeContent then
    target.data
  else none

theorem freeContent_eq (owned : h.datanode.Chain (removedChain target removeContent) freed) :
    h.freeContent target removeContent = some (h.datanode.freed freed) := by
  rw [removedChain] at owned
  rw [freeContent]
  split_ifs at owned ⊢ with content
  · exact Datanodes.removeDatanodeChain_chain owned
  · have : freed = [] := by
      cases freed with
      | nil => rfl
      | cons b freed => exact absurd owned.links.1 (by simp)
    rw [this]
    rfl

theorem Directory.remove {slots' : List Slot} {nodes' : List Addr} (dir : h.Directory chain nodes slots)
    (stores : h'.Stores chain nodes' slots') (trimmed : trim slots' = slots')
    (ramnodes : h'.ramnode = Function.update h.ramnode a none) (gone : entries slots' = (entries slots).erase a) :
    h'.Directory chain nodes' slots' := by
  have kept : ∀ b ∈ entries slots', b ∈ entries slots ∧ h'.ramnode b = h.ramnode b := by
    intro b member
    rw [gone, dir.nodup.mem_erase_iff] at member
    refine ⟨member.2, ?_⟩
    rw [ramnodes, Function.update_of_ne member.1]
  refine ⟨stores, trimmed, fun b member => ?_, ?_⟩
  · rw [(kept b member).2]
    exact dir.live b (kept b member).1
  · have same : h'.names slots' = h.names slots' := List.map_congr_left fun b member => by
      rw [nameOf, nameOf, (kept b member).2]
    rw [same, names, gone]
    exact dir.distinct.sublist (List.erase_sublist.map h.nameOf)

theorem removeFound_spec (dir : h.Directory chain nodes slots) (here : h.ramnode parent = some node)
    (owns : node.data = some chain) (found : h.ramnode removeNode.nodeAddr = some target)
    (owned : h.datanode.Chain (removedChain target removeContent) freed) (apart : freed.Disjoint nodes) :
    (removeNode.nodeAddr ∉ entries slots ∧ h.removeFound parent removeNode removeContent = some (.notFound, h)) ∨
    (removeNode.nodeAddr ∈ entries slots ∧ ∃ h' n slots',
      h.removeFound parent removeNode removeContent = some (.success, h') ∧
      Drops h h' removeNode.nodeAddr freed nodes ∧ h'.Directory chain (nodes.take n) slots' ∧
      entries slots' = (entries slots).erase removeNode.nodeAddr) := by
  have walk := dir.toStores.walk_find removeNode.nodeAddr
  by_cases listed : removeNode.nodeAddr ∈ entries slots
  · have member := mem_entries.mp listed
    rw [if_pos member] at walk
    generalize index : slots.idxOf (.ramnode removeNode.nodeAddr) = k at walk
    have inside : k < slots.length := index ▸ List.idxOf_lt_length_iff.mpr member
    have entry : slots[k]? = some (.ramnode removeNode.nodeAddr) := by
      subst index
      rw [List.getElem?_eq_getElem inside]
      exact congrArg some (List.getElem_idxOf inside)
    generalize between : (h.withDatanodes (h.datanode.freed freed)).rfreeRamnode removeNode.nodeAddr = middle
    have kept : ∀ b, b ∉ freed → middle.datanode b = h.datanode b := by
      intro b outside
      rw [← between]
      exact if_neg outside
    have ramnodes : middle.ramnode = Function.update h.ramnode removeNode.nodeAddr none := by rw [← between]; rfl
    have stores : middle.Stores chain nodes slots := dir.toStores.congr fun b member =>
      kept b fun gone => apart gone member
    obtain ⟨h', n, dropped, within, stored⟩ := dropEntry_spec stores dir.trimmed inside
    have gone : entries (trim (slots.set k .emptyEntry)) = (entries slots).erase removeNode.nodeAddr := by
      rw [entries_trim, entries_set_empty entry dir.nodup]
    refine .inr ⟨listed, h', n, _, ?_, ⟨within.ramnode.trans ramnodes, fun b outside safe => ?_⟩, ?_, gone⟩
    · simp only [removeFound, here, owns, walk, found, freeContent_eq owned, between, dropped, Option.bind_eq_bind,
        Option.bind_some]
      rfl
    · rw [within.datanode b outside, kept b safe]
    · exact dir.remove stored (List.rdropWhile_idempotent _ _) (within.ramnode.trans ramnodes) gone
  · rw [if_neg (mt mem_entries.mpr listed)] at walk
    refine .inl ⟨listed, ?_⟩
    simp only [removeFound, here, owns, walk, Option.bind_eq_bind, Option.bind_some]
    rfl

end Remove

end Kerosene.Ramfs.Heap
