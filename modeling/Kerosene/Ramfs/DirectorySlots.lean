import Kerosene.Lib.Blocks
import Kerosene.Ramfs.Directory
import Mathlib.Data.List.DropRight

/-!
# A directory as one row of slots

The entries of all datanodes of a directory, in order, are its slots followed by `END_ENTRY` only.
-/

namespace Kerosene.Ramfs.Heap
open Lib
variable {h h' : Heap} {chain a : Addr} {nodes : List Addr} {slots : List Slot} {k : Nat}

def row (h : Heap) (a : Addr) : List Slot := (h.datanode a).elim [] fun node => node.data.toList

-- where slot `k` lies
def nodeOf (nodes : List Addr) (k : Nat) : Addr := nodes.getD (k / 128) 0

/-! ## The words of the chain -/

structure Holds (h : Heap) (chain : Addr) (nodes : List Addr) (words : List Slot) : Prop where
  linked : h.datanode.Chain (some chain) nodes
  words : (nodes.map h.row).flatten = words

theorem row_length {node : Datanode Entries} (here : h.datanode a = some node) : (h.row a).length = 128 := by
  rw [row, here]
  exact node.data.length_toList

theorem rows_blocks (linked : h.datanode.Chain (some chain) nodes) : Blocks 128 (nodes.map h.row) := by
  intro b member
  obtain ⟨a, inside, rfl⟩ := List.mem_map.mp member
  obtain ⟨node, here⟩ := Option.isSome_iff_exists.mp (linked.allocated a inside)
  exact row_length here

theorem Holds.length {words : List Slot} (holds : h.Holds chain nodes words) : words.length = nodes.length * 128 := by
  rw [← holds.words, (rows_blocks holds.linked).length, List.length_map]

theorem nodeOf_getElem? {l : List Addr} (inside : k < l.length * 128) : l[k / 128]? = some (nodeOf l k) := by
  have bound : k / 128 < l.length := by omega
  rw [nodeOf, List.getD_eq_getElem?_getD, List.getElem?_eq_getElem bound]
  rfl

theorem nodeOf_mem (inside : k < nodes.length * 128) : nodeOf nodes k ∈ nodes :=
  List.mem_of_getElem? (nodeOf_getElem? inside)

section Holds
variable {words : List Slot} (holds : h.Holds chain nodes words)
include holds

theorem Holds.getElem? (inside : k < nodes.length * 128) : (h.row (nodeOf nodes k))[k % 128]? = words[k]? := by
  have place := (rows_blocks holds.linked).getElem? (j := k / 128) (Nat.mod_lt k (by decide : 0 < 128))
  rw [holds.words, Nat.div_add_mod' k 128, List.getElem?_map, nodeOf_getElem? inside] at place
  exact place.symm

theorem Holds.node (inside : k < nodes.length * 128) :
    ∃ node, h.datanode (nodeOf nodes k) = some node ∧ node.data.toList = h.row (nodeOf nodes k) := by
  obtain ⟨node, here⟩ := Option.isSome_iff_exists.mp (holds.linked.allocated _ (nodeOf_mem inside))
  exact ⟨node, here, by rw [row, here]; rfl⟩

end Holds

theorem row_setEntry (h : Heap) (a : Addr) (entryId : Nat) (slot : Slot) :
    (h.setEntry a entryId slot).row = Function.update h.row a ((h.row a).set entryId slot) := by
  funext b
  by_cases same : b = a
  · subst same
    rw [Function.update_self, row, row]
    cases here : h.datanode b <;> simp [setEntry, withDatanodes, here]
  · rw [Function.update_of_ne same, row, row]
    simp [setEntry, withDatanodes, same]

theorem link_setEntry (h : Heap) (a : Addr) (entryId : Nat) (slot : Slot) :
    (h.setEntry a entryId slot).datanode.link = h.datanode.link := by
  funext b
  by_cases same : b = a
  · subst same
    cases here : h.datanode b <;> simp [setEntry, withDatanodes, Datanodes.link, here]
  · simp [setEntry, withDatanodes, Datanodes.link, same]

theorem isSome_setEntry (h : Heap) (a b : Addr) (entryId : Nat) (slot : Slot) :
    ((h.setEntry a entryId slot).datanode b).isSome = (h.datanode b).isSome := by
  by_cases same : b = a
  · subst same
    simp [setEntry, withDatanodes]
  · simp [setEntry, withDatanodes, same]

theorem Holds.setEntry {words : List Slot} (holds : h.Holds chain nodes words) (inside : k < nodes.length * 128)
    (slot : Slot) : (h.setEntry (nodeOf nodes k) (k % 128) slot).Holds chain nodes (words.set k slot) := by
  refine ⟨⟨?_, fun b member => ?_⟩, ?_⟩
  · rw [link_setEntry]
    exact holds.linked.links
  · rw [isSome_setEntry]
    exact holds.linked.allocated b member
  · have here := nodeOf_getElem? inside
    rw [row_setEntry, map_update_of_getElem? holds.linked.nodup here,
      (rows_blocks holds.linked).set (Nat.mod_lt k (by decide)) (by rw [List.getElem?_map, here]; rfl),
      Nat.div_add_mod' k 128, holds.words]

/-! ## The loops, slot by slot -/

section Scan
variable {β ρ : Type} {f g : Nat → Slot → β → Option (Round β ρ)} {b : β} {p q : Nat}

-- the loop leaves a datanode at its first `END_ENTRY` and only there
structure LeavesAtEnd (f : Nat → Slot → β → Option (Round β ρ)) : Prop where
  atEnd : ∀ k b b', f k .endEntry b ≠ some (.next b')
  onlyThere : ∀ k slot b b', slot ≠ .endEntry → f k slot b ≠ some (.stop b')

theorem scanEntries_congr (same : ∀ i < slots.length, f (p + i) = g (q + i)) :
    scanEntries f slots p b = scanEntries g slots q b := by
  induction slots generalizing p q b with
  | nil => rfl
  | cons slot slots ih =>
      have first : f p = g q := same 0 (by simp)
      have rest : ∀ i < slots.length, f (p + 1 + i) = g (q + 1 + i) := fun i small => by
        have := same (i + 1) (by simpa using small)
        rwa [Nat.add_right_comm p 1 i, Nat.add_right_comm q 1 i]
      simp only [scanEntries, first, fun b => ih (b := b) rest]

theorem scanEntries_append (leaves : LeavesAtEnd f) (noEnd : Slot.endEntry ∉ slots) (rest : List Slot) :
    scanEntries f (slots ++ rest) p b = (scanEntries f slots p b).bind fun
      | .inl b => scanEntries f rest (p + slots.length) b
      | .inr r => some (.inr r) := by
  induction slots generalizing p b with
  | nil => rfl
  | cons slot slots ih =>
      rw [List.mem_cons, not_or] at noEnd
      rw [List.cons_append, scanEntries, scanEntries]
      cases round : f p slot b with
      | none => rfl
      | some r =>
          cases r with
          | next b' =>
              simp only [Option.bind_eq_bind, Option.bind_some, ih noEnd.2, List.length_cons]
              rw [Nat.add_comm slots.length 1, Nat.add_assoc]
          | stop b' => exact absurd round (leaves.onlyThere p slot b b' (Ne.symm noEnd.1))
          | ret r => rfl

-- what lies behind the first `END_ENTRY` is not looked at
theorem scanEntries_end (leaves : LeavesAtEnd f) (slots rest : List Slot) :
    scanEntries f (slots ++ .endEntry :: rest) p b = scanEntries f (slots ++ [.endEntry]) p b := by
  induction slots generalizing p b with
  | nil =>
      rw [List.nil_append, List.nil_append, scanEntries, scanEntries]
      cases round : f p .endEntry b with
      | none => rfl
      | some r =>
          cases r with
          | next b' => exact absurd round (leaves.atEnd p b b')
          | stop b' => rfl
          | ret r => rfl
  | cons slot slots ih => simp only [List.cons_append, scanEntries, ih]

end Scan

/-! ## Slots -/

structure Stores (h : Heap) (chain : Addr) (nodes : List Addr) (slots : List Slot) : Prop where
  linked : h.datanode.Chain (some chain) nodes
  words : (nodes.map h.row).flatten = slots ++ List.replicate (nodes.length * 128 - slots.length) .endEntry
  noEnd : .endEntry ∉ slots
  count : nodes.length = slots.length / 128 + 1

theorem Stores.holds (stores : h.Stores chain nodes slots) :
    h.Holds chain nodes (slots ++ List.replicate (nodes.length * 128 - slots.length) .endEntry) :=
  ⟨stores.linked, stores.words⟩

theorem Stores.single (stores : h.Stores chain [a] slots) :
    slots.length < 128 ∧ h.row a = slots ++ .endEntry :: List.replicate (127 - slots.length) .endEntry := by
  have count : 1 = slots.length / 128 + 1 := stores.count
  have small : slots.length < 128 := by omega
  refine ⟨small, ?_⟩
  have words := stores.words
  rw [← List.replicate_succ, show 127 - slots.length + 1 = 1 * 128 - slots.length by omega]
  simpa using words

theorem Stores.cons {next : Addr} {rest : List Addr} (stores : h.Stores chain (a :: next :: rest) slots) :
    128 ≤ slots.length ∧ h.row a = slots.take 128 ∧ h.Stores next (next :: rest) (slots.drop 128) := by
  have count : rest.length + 2 = slots.length / 128 + 1 := stores.count
  have large : 128 ≤ slots.length := by omega
  obtain ⟨node, _, here, linked⟩ := Datanodes.chain_cons.mp stores.linked
  have length := row_length here
  have words := stores.words
  rw [← List.take_append_drop 128 slots, List.append_assoc, List.map_cons, List.flatten_cons] at words
  have split := List.append_inj words (by rw [length, List.length_take]; omega)
  refine ⟨large, split.1, ?_⟩
  have first : node.next = some next := linked.links.1
  refine ⟨first ▸ linked, ?_, fun inside => stores.noEnd (List.mem_of_mem_drop inside), ?_⟩
  · have space : (a :: next :: rest).length * 128 - slots.length = (next :: rest).length * 128 - (slots.drop 128).length := by
      rw [List.length_drop, List.length_cons]
      omega
    rw [split.2, List.take_append_drop, space]
  · rw [List.length_drop, List.length_cons]
    omega

theorem walkEntries_stores {β ρ : Type} {body : Addr → Nat → Slot → β → Option (Round β ρ)} {b : β}
    {fuel j : Nat} {f : Nat → Addr} (leaves : LeavesAtEnd fun k => body (f (k / 128)) (k % 128))
    (stores : h.Stores chain nodes slots) (enough : nodes.length ≤ fuel)
    (names : ∀ i a, nodes[i]? = some a → f (j + i) = a) :
    walkEntries h body fuel chain b =
      (scanEntries (fun k => body (f (k / 128)) (k % 128)) (slots ++ [.endEntry]) (j * 128) b).map
        (Sum.map (fun b => (f (j + slots.length / 128), b)) id) := by
  induction nodes generalizing chain slots fuel j b with
  | nil => exact absurd stores.linked.links (by simp)
  | cons a rest ih =>
      obtain ⟨fuel, rfl⟩ : ∃ n, fuel = n + 1 := ⟨fuel - 1, by simp at enough; omega⟩
      obtain ⟨block, first, here, linked⟩ := Datanodes.chain_cons.mp stores.linked
      cases first
      have name : f j = a := names 0 a rfl
      have data : block.data.toList = h.row a := by rw [row, here]; rfl
      -- inside one datanode the two loops call the same body
      have inside : ∀ s : List Slot, s.length ≤ 128 → ∀ b, scanEntries (body a) s 0 b =
          scanEntries (fun k => body (f (k / 128)) (k % 128)) s (j * 128) b := by
        intro s short b
        refine scanEntries_congr fun i small => ?_
        rw [show (j * 128 + i) / 128 = j by omega, show (j * 128 + i) % 128 = i by omega, name, Nat.zero_add]
      rw [walkEntries, here, Option.bind_eq_bind, Option.bind_some, data]
      cases rest with
      | nil =>
          obtain ⟨small, words⟩ := stores.single
          have ends : block.next = none := linked.links
          rw [inside _ (row_length here).le, words, scanEntries_end leaves, Nat.div_eq_of_lt small, Nat.add_zero, name,
            ends]
          cases scanEntries (fun k => body (f (k / 128)) (k % 128)) (slots ++ [.endEntry]) (j * 128) b with
          | none => rfl
          | some r => cases r <;> rfl
      | cons next rest =>
          obtain ⟨large, words, tail⟩ := stores.cons
          have follows : block.next = some next := linked.links.1
          have noEnd : Slot.endEntry ∉ slots.take 128 := fun inside => stores.noEnd (List.mem_of_mem_take inside)
          have length : (slots.take 128).length = 128 := by rw [List.length_take]; omega
          have rows : slots ++ [.endEntry] = slots.take 128 ++ (slots.drop 128 ++ [.endEntry]) := by
            rw [← List.append_assoc, List.take_append_drop]
          rw [inside _ (row_length here).le, words, rows, scanEntries_append leaves noEnd, length]
          cases scanEntries (fun k => body (f (k / 128)) (k % 128)) (slots.take 128) (j * 128) b with
          | none => rfl
          | some r =>
              cases r with
              | inr r => rfl
              | inl b =>
                  have later := ih (b := b) (j := j + 1) tail (by simpa using enough) fun i a found => by
                    rw [Nat.add_right_comm, Nat.add_assoc]
                    exact names (i + 1) a (by simpa using found)
                  rw [List.length_drop, show j + 1 + (slots.length - 128) / 128 = j + slots.length / 128 by omega,
                    show (j + 1) * 128 = j * 128 + 128 by omega] at later
                  simp only [follows]
                  exact later

theorem Stores.walk {β ρ : Type} {body : Addr → Nat → Slot → β → Option (Round β ρ)} {b : β}
    (stores : h.Stores chain nodes slots) (leaves : LeavesAtEnd fun k => body (nodeOf nodes k) (k % 128)) :
    walkEntries h body chainFuel chain b =
      (scanEntries (fun k => body (nodeOf nodes k) (k % 128)) (slots ++ [.endEntry]) 0 b).map
        (Sum.map (fun b => (nodeOf nodes slots.length, b)) id) := by
  have walk := walkEntries_stores (j := 0) (b := b) (f := fun j => nodes.getD j 0) leaves stores
    stores.linked.length_le fun i a found => by
      rw [Nat.zero_add, List.getD_eq_getElem?_getD, found]
      rfl
  rwa [Nat.zero_mul, Nat.zero_add] at walk

/-! ## `fix_empty_entries` cuts the row behind its last ramnode -/

def trim (slots : List Slot) : List Slot := slots.rdropWhile (· = .emptyEntry)

theorem trim_append_empty (slots : List Slot) : trim (slots ++ [.emptyEntry]) = trim slots :=
  List.rdropWhile_concat_pos _ _ _ (by decide)

theorem trim_append_ramnode (slots : List Slot) (a : Addr) : trim (slots ++ [.ramnode a]) = slots ++ [.ramnode a] :=
  List.rdropWhile_concat_neg _ _ _ (by simp)

theorem trim_take (slots : List Slot) : slots.take (trim slots).length = trim slots :=
  (List.prefix_iff_eq_take.mp (List.rdropWhile_prefix _ slots)).symm

theorem trim_length_le (slots : List Slot) : (trim slots).length ≤ slots.length :=
  (List.rdropWhile_prefix _ slots).length_le

def trailing (nodes : List Addr) (slots : List Slot) : Option (Addr × Nat) :=
  if (trim slots).length < slots.length then
    some (nodeOf nodes (trim slots).length, (trim slots).length % 128)
  else none

theorem leaves_trailing (nodes : List Addr) :
    LeavesAtEnd fun k => trailingRound (nodeOf nodes k) (k % 128) := by
  refine ⟨fun k b b' => by simp [trailingRound], fun k slot b b' other => ?_⟩
  cases slot <;> simp_all [trailingRound]

theorem trailing_append_empty (nodes : List Addr) (slots : List Slot) :
    trailing nodes (slots ++ [.emptyEntry]) =
      (trailing nodes slots).or (some (nodeOf nodes slots.length, slots.length % 128)) := by
  have short := trim_length_le slots
  simp only [trailing, trim_append_empty, List.length_append, List.length_singleton]
  rw [if_pos (by omega)]
  split_ifs with before
  · rfl
  · rw [show (trim slots).length = slots.length by omega]
    rfl

theorem scan_trailing {l : List Addr} {p rest : List Slot} (noEnd : Slot.endEntry ∉ rest) :
    scanEntries (fun k => trailingRound (nodeOf l k) (k % 128)) (rest ++ [.endEntry]) p.length
      (trailing l p) = some (.inr (trailing l (p ++ rest))) := by
  induction rest generalizing p with
  | nil => simp [scanEntries, trailingRound]
  | cons slot rest ih =>
      rw [List.mem_cons, not_or] at noEnd
      have later := ih (p := p ++ [slot]) noEnd.2
      rw [List.append_assoc, List.length_append] at later
      rw [List.cons_append, scanEntries]
      cases slot with
      | endEntry => exact absurd rfl noEnd.1
      | emptyEntry =>
          rw [trailing_append_empty] at later
          exact later
      | ramnode a =>
          rw [show trailing l (p ++ [.ramnode a]) = none by simp [trailing, trim_append_ramnode]] at later
          exact later

theorem toList_clearFrom {entries : Entries} {first : Nat} (inside : first ≤ 128) :
    (clearFrom entries first).toList = entries.toList.take first ++ List.replicate (128 - first) .endEntry := by
  apply List.ext_getElem
  · simp only [Vector.length_toList, List.length_append, List.length_take, List.length_replicate]
    omega
  · intro i small _
    rw [Vector.length_toList] at small
    by_cases before : i < first
    · rw [List.getElem_append_left (by simp; omega)]
      simp [clearFrom, before]
    · rw [List.getElem_append_right (by simp; omega)]
      simp [clearFrom, before]

/-- Only datanodes of `nodes` change. -/
structure Within (h h' : Heap) (nodes : List Addr) : Prop where
  ramnode : h'.ramnode = h.ramnode
  datanode : ∀ a ∉ nodes, h'.datanode a = h.datanode a

theorem Within.refl (h : Heap) (nodes : List Addr) : Within h h nodes := ⟨rfl, fun _ _ => rfl⟩

theorem Within.trans {h'' : Heap} (first : Within h h' nodes) (second : Within h' h'' nodes) : Within h h'' nodes :=
  ⟨second.ramnode.trans first.ramnode, fun a outside => (second.datanode a outside).trans (first.datanode a outside)⟩

theorem within_setEntry (member : a ∈ nodes) (h : Heap) (entryId : Nat) (slot : Slot) :
    Within h (h.setEntry a entryId slot) nodes := by
  refine ⟨rfl, fun b outside => ?_⟩
  have : b ≠ a := by rintro rfl; exact outside member
  simp [setEntry, withDatanodes, this]

-- the chain ends at `a`, and so do the entries of `a` at `first`
def cutAt (h : Heap) (a : Addr) (first : Nat) (node : Datanode Entries) (rest : List Addr) : Heap :=
  h.withDatanodes (((h.datanode.setData a (clearFrom node.data first)).freed rest).setNext a none)

section CutAt
variable {left right : List Addr} {node : Datanode Entries} {first : Nat}

theorem datanode_cutAt_self (here : h.datanode a = some node) (outside : a ∉ right) :
    (h.cutAt a first node right).datanode a = some ⟨none, clearFrom node.data first⟩ := by
  simp [cutAt, withDatanodes, Datanodes.setNext, Datanodes.freed, Datanodes.setData, here, outside]

theorem datanode_cutAt_left {b : Addr} (other : b ≠ a) (outside : b ∉ right) :
    (h.cutAt a first node right).datanode b = h.datanode b := by
  simp [cutAt, withDatanodes, Datanodes.setNext, Datanodes.freed, Datanodes.setData, other, outside]

theorem row_cutAt_self (here : h.datanode a = some node) (outside : a ∉ right) (inside : first ≤ 128) :
    (h.cutAt a first node right).row a = (h.row a).take first ++ List.replicate (128 - first) .endEntry := by
  rw [row, datanode_cutAt_self here outside, row, here]
  exact toList_clearFrom inside

variable (linked : h.datanode.Chain (some chain) (left ++ a :: right)) (here : h.datanode a = some node)
include linked

omit linked in
theorem cutAt_disjoint (nodup : (left ++ a :: right).Nodup) :
    a ∉ left ∧ a ∉ right ∧ ∀ b ∈ left, b ≠ a ∧ b ∉ right := by
  rw [List.nodup_append', List.nodup_cons] at nodup
  refine ⟨fun inside => nodup.2.2 inside List.mem_cons_self, nodup.2.1.1, fun b member => ⟨?_, fun inside => ?_⟩⟩
  · rintro rfl
    exact nodup.2.2 member List.mem_cons_self
  · exact nodup.2.2 member (List.mem_cons_of_mem a inside)

include here in
theorem chain_cutAt : (h.cutAt a first node right).datanode.Chain (some chain) (left ++ [a]) := by
  obtain ⟨_, notRight, others⟩ := cutAt_disjoint linked.nodup
  refine ⟨linked.links.split.1.relink (fun b member => ?_) ?_, fun b member => ?_⟩
  · rw [Datanodes.link, datanode_cutAt_left (others b member).1 (others b member).2]
    rfl
  · rw [Datanodes.link, datanode_cutAt_self here notRight]
    rfl
  · rcases List.mem_append.mp member with inside | same
    · rw [datanode_cutAt_left (others b inside).1 (others b inside).2]
      exact linked.allocated b (List.mem_append_left _ inside)
    · rw [List.mem_singleton.mp same, datanode_cutAt_self here notRight]
      rfl

include here in
theorem rows_cutAt {words : List Slot} (holds : ((left ++ a :: right).map h.row).flatten = words)
    (inside : first ≤ 128) : ((left ++ [a]).map (h.cutAt a first node right).row).flatten =
      words.take (left.length * 128 + first) ++ List.replicate (128 - first) .endEntry := by
  obtain ⟨_, notRight, others⟩ := cutAt_disjoint linked.nodup
  have same : left.map (h.cutAt a first node right).row = left.map h.row := by
    refine List.map_congr_left fun b member => ?_
    rw [row, row, datanode_cutAt_left (others b member).1 (others b member).2]
  have before : (left.map h.row).flatten.length = left.length * 128 := by
    have blocks : Blocks 128 (left.map h.row) := fun b member =>
      rows_blocks linked b (by rw [List.map_append]; exact List.mem_append_left _ member)
    rw [blocks.length, List.length_map]
  have length := row_length here
  rw [← holds, List.map_append, List.map_append, same, List.flatten_append, List.flatten_append, List.map_singleton,
    List.flatten_singleton, row_cutAt_self here notRight inside, List.map_cons, List.flatten_cons, ← before,
    List.take_length_add_append, List.take_append_of_le_length (by rw [length]; exact inside), List.append_assoc]

end CutAt

theorem fixEmptyEntries_cut {left right : List Addr} {node : Datanode Entries} {first : Nat}
    (linked : h.datanode.Chain (some chain) (left ++ a :: right)) (here : h.datanode a = some node)
    (walk : walkEntries h trailingRound chainFuel chain none = some (.inr (some (a, first)))) :
    h.fixEmptyEntries chain = some (h.cutAt a first node right) := by
  obtain ⟨_, notRight, _⟩ := cutAt_disjoint linked.nodup
  have follows : h.datanode.link a = node.next := by rw [Datanodes.link, here]; rfl
  have behind : h.datanode.Chain node.next right := by
    refine ⟨follows ▸ linked.links.split.2, fun b member => linked.allocated b (by simp [member])⟩
  have behind' : (h.datanode.setData a (clearFrom node.data first)).Chain node.next right :=
    behind.congr fun b member => Function.update_of_ne (by rintro rfl; exact notRight member) ..
  simp only [fixEmptyEntries, walk, here, Option.bind_eq_bind, Option.bind_some,
    Datanodes.removeDatanodeChain_chain behind']
  rfl

theorem fixEmptyEntries_spec (stores : h.Stores chain nodes slots) :
    ∃ h', h.fixEmptyEntries chain = some h' ∧ Within h h' nodes ∧
      h'.Stores chain (nodes.take ((trim slots).length / 128 + 1)) (trim slots) := by
  have walk : walkEntries h trailingRound chainFuel chain none = some (.inr (trailing nodes slots)) := by
    have scan := scan_trailing (l := nodes) (p := []) stores.noEnd
    rw [List.length_nil, List.nil_append, show trailing nodes [] = none from rfl] at scan
    rw [stores.walk (leaves_trailing nodes), scan]
    rfl
  have short := trim_length_le slots
  have prefixed := trim_take slots
  by_cases kept : (trim slots).length < slots.length
  · have start : trailing nodes slots = some (nodeOf nodes (trim slots).length, (trim slots).length % 128) := if_pos kept
    rw [start] at walk
    have inside : (trim slots).length < nodes.length * 128 := by have := stores.count; omega
    generalize last : (trim slots).length = e at *
    have position := nodeOf_getElem? inside
    obtain ⟨bound, at'⟩ := List.getElem?_eq_some_iff.mp position
    -- the datanodes before and behind the one where the trailing empty slots start
    have split : nodes = nodes.take (e / 128) ++ nodeOf nodes e :: nodes.drop (e / 128 + 1) := by
      rw [← at', List.getElem_cons_drop, List.take_append_drop]
    have front : nodes.take (e / 128 + 1) = nodes.take (e / 128) ++ [nodeOf nodes e] := by
      rw [List.take_add_one, position]
      rfl
    have length : (nodes.take (e / 128)).length = e / 128 := by rw [List.length_take]; omega
    obtain ⟨node, here, -⟩ := stores.holds.node inside
    have linked : h.datanode.Chain (some chain) (nodes.take (e / 128) ++ nodeOf nodes e :: nodes.drop (e / 128 + 1)) := by
      rw [← split]
      exact stores.linked
    have words : ((nodes.take (e / 128) ++ nodeOf nodes e :: nodes.drop (e / 128 + 1)).map h.row).flatten =
        slots ++ List.replicate (nodes.length * 128 - slots.length) .endEntry := by
      rw [← split]
      exact stores.words
    refine ⟨_, fixEmptyEntries_cut linked here walk, ⟨rfl, fun b outside => ?_⟩, ?_⟩
    · refine datanode_cutAt_left (by rintro rfl; exact outside (nodeOf_mem inside)) fun behind => outside ?_
      exact List.mem_of_mem_drop behind
    · rw [front]
      refine ⟨chain_cutAt linked here, ?_, fun ends => stores.noEnd ?_, by simp [length, last]⟩
      · rw [rows_cutAt linked here words (Nat.mod_lt e (by decide)).le, length, Nat.div_add_mod' e 128,
          List.take_append_of_le_length short, prefixed]
        congr 2
        simp only [List.length_append, length, List.length_singleton, last]
        omega
      · exact (List.rdropWhile_prefix _ slots).subset ends
  · have start : trailing nodes slots = none := if_neg kept
    rw [start] at walk
    have same : trim slots = slots := by
      rw [← prefixed, List.take_of_length_le (by omega)]
    refine ⟨h, ?_, .refl h nodes, ?_⟩
    · simp only [fixEmptyEntries, walk]
      rfl
    · rw [same, ← stores.count, List.take_length]
      exact stores

end Kerosene.Ramfs.Heap
