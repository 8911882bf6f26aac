import Kerosene.Ramfs.DirectorySlots

/-!
# What the directory calls read in the slots
-/

namespace Kerosene.Ramfs.Heap
open Lib
variable {h h' : Heap} {chain a : Addr} {nodes : List Addr} {slots : List Slot} {k : Nat}

def address? : Slot → Option Addr
  | .ramnode a => some a
  | _ => none

def entries (slots : List Slot) : List Addr := slots.filterMap address?

@[simp] theorem entries_nil : entries [] = [] := rfl

@[simp] theorem entries_append (left right : List Slot) : entries (left ++ right) = entries left ++ entries right :=
  List.filterMap_append

@[simp] theorem entries_empty (slots : List Slot) : entries (.emptyEntry :: slots) = entries slots := rfl

@[simp] theorem entries_ramnode (a : Addr) (slots : List Slot) :
    entries (.ramnode a :: slots) = a :: entries slots := rfl

theorem mem_entries : a ∈ entries slots ↔ .ramnode a ∈ slots := by
  rw [entries, List.mem_filterMap]
  constructor
  · rintro ⟨slot, member, address⟩
    cases slot <;> simp_all [address?]
  · exact fun member => ⟨_, member, rfl⟩

theorem entries_trim (slots : List Slot) : entries (trim slots) = entries slots := by
  induction slots using List.reverseRecOn with
  | nil => rfl
  | append_singleton slots slot ih =>
      cases slot with
      | emptyEntry => rw [trim_append_empty, ih, entries_append]; exact (List.append_nil _).symm
      | endEntry => rw [trim, List.rdropWhile_concat_neg _ _ _ (by decide)]
      | ramnode a => rw [trim_append_ramnode]

def nameOf (h : Heap) (a : Addr) : Option Name := (h.ramnode a).map Ramnode.name

def names (h : Heap) (slots : List Slot) : List (Option Name) := (entries slots).map h.nameOf

structure Directory (h : Heap) (chain : Addr) (nodes : List Addr) (slots : List Slot) : Prop
    extends Stores h chain nodes slots where
  trimmed : trim slots = slots
  live : ∀ a ∈ entries slots, ∃ node, h.ramnode a = some node
  distinct : (h.names slots).Nodup

theorem Directory.nodup (dir : h.Directory chain nodes slots) : (entries slots).Nodup :=
  dir.distinct.of_map

/-! ## Iteration lists the ramnodes -/

def iterAt (nodes : List Addr) (k : Nat) : DirectoryIterator := ⟨(k % 128 : Nat), nodeOf nodes k⟩

section Iterate
variable {words : List Slot} (holds : h.Holds chain nodes words)
include holds

theorem Holds.advance_iterAt (inside : k + 1 < nodes.length * 128) :
    h.advance (iterAt nodes k) = some (some (iterAt nodes (k + 1))) := by
  by_cases last : k % 128 = 127
  · obtain ⟨node, here, -⟩ := holds.node (k := k) (by omega)
    have follows := holds.linked.links.next_getElem? (nodeOf_getElem? (k := k) (by omega))
    rw [Datanodes.link, here, Option.bind_some, show k / 128 + 1 = (k + 1) / 128 by omega, nodeOf_getElem? inside] at follows
    have index : ((k % 128 : Nat) : Int) + 1 = directoryEntryCount := by rw [last]; rfl
    simp only [advance, iterAt, index, here, follows, if_true, Option.bind_eq_bind, Option.bind_some, Option.map_some]
    rw [show (k + 1) % 128 = 0 by omega]
    rfl
  · have index : ¬ ((k % 128 : Nat) : Int) + 1 = directoryEntryCount := by
      simp only [directoryEntryCount]
      omega
    simp only [advance, iterAt, index, if_false]
    rw [show (k + 1) % 128 = k % 128 + 1 by omega, nodeOf, nodeOf, show (k + 1) / 128 = k / 128 by omega]
    rfl

theorem Holds.entryAt_iterAt (inside : k < nodes.length * 128) : h.entryAt (iterAt nodes k) = words[k]? := by
  obtain ⟨node, here, data⟩ := holds.node inside
  rw [← holds.getElem? inside, ← data]
  simp only [entryAt, iterAt, here, Option.bind_eq_bind, Option.bind_some, Int.toNat_natCast]

theorem Holds.skipEmpty {p post : List Slot} {slot : Slot} {n i : Nat} (other : slot ≠ .emptyEntry)
    (split : words = p ++ List.replicate n .emptyEntry ++ slot :: post) (enough : n < i) :
    h.skipEmpty i (iterAt nodes p.length) = some (some (slot, iterAt nodes (p.length + n))) := by
  have length := holds.length
  rw [split] at length
  simp only [List.length_append, List.length_replicate, List.length_cons] at length
  induction n generalizing p i with
  | zero =>
      obtain ⟨i, rfl⟩ : ∃ m, i = m + 1 := ⟨i - 1, by omega⟩
      have here : words[p.length]? = some slot := by simp [split]
      simp only [Heap.skipEmpty, holds.entryAt_iterAt (k := p.length) (by omega), here, Option.bind_eq_bind,
        Option.bind_some, other, if_false]
      rfl
  | succ n ih =>
      obtain ⟨i, rfl⟩ : ∃ m, i = m + 1 := ⟨i - 1, by omega⟩
      have here : words[p.length]? = some .emptyEntry := by simp [split, List.replicate_succ]
      have later := ih (p := p ++ [.emptyEntry]) (i := i) (by simp [split, List.replicate_succ]) (by omega)
        (by simp; omega)
      rw [List.length_append, List.length_singleton] at later
      simp only [Heap.skipEmpty, holds.entryAt_iterAt (k := p.length) (by omega), here, Option.bind_eq_bind,
        Option.bind_some, if_true, holds.advance_iterAt (k := p.length) (by omega), later]
      rw [Nat.add_assoc, Nat.add_comm 1 n]

theorem Holds.iterate_ramnode {pre post : List Slot} {n : Nat} {iter : DirectoryIterator} {node : Ramnode}
    (split : words = pre ++ List.replicate n .emptyEntry ++ .ramnode a :: post) (here : h.ramnode a = some node)
    (start : h.advance iter = some (some (iterAt nodes pre.length))) :
    h.ramfsIterateDirectory iter = some (.ok (toFsNode a node, iterAt nodes (pre.length + n))) := by
  have length := holds.length
  have bound := holds.linked.length_le
  rw [split] at length
  simp only [List.length_append, List.length_replicate, List.length_cons] at length
  have skip := holds.skipEmpty (i := chainFuel * directoryEntryCount) (by simp) split
    (by simp only [directoryEntryCount]; omega)
  simp only [ramfsIterateDirectory, start, skip, here, Option.bind_eq_bind, Option.bind_some]
  rfl

theorem Holds.iterate_end {pre post : List Slot} {n : Nat} {iter : DirectoryIterator}
    (split : words = pre ++ List.replicate n .emptyEntry ++ .endEntry :: post)
    (start : h.advance iter = some (some (iterAt nodes pre.length))) :
    h.ramfsIterateDirectory iter = some (.error .eof) := by
  have length := holds.length
  have bound := holds.linked.length_le
  rw [split] at length
  simp only [List.length_append, List.length_replicate, List.length_cons] at length
  have skip := holds.skipEmpty (i := chainFuel * directoryEntryCount) (by simp) split
    (by simp only [directoryEntryCount]; omega)
  simp only [ramfsIterateDirectory, start, skip, Option.bind_eq_bind, Option.bind_some]
  rfl

end Iterate

def fsNodeOf (h : Heap) (a : Addr) : Option FsNode := (h.ramnode a).map (toFsNode a)

theorem leading_empty {rest : List Slot} (noEnd : Slot.endEntry ∉ rest) :
    ∃ n, rest = List.replicate n .emptyEntry ∨ ∃ a post, rest = List.replicate n .emptyEntry ++ .ramnode a :: post := by
  induction rest with
  | nil => exact ⟨0, .inl rfl⟩
  | cons slot rest ih =>
      rw [List.mem_cons, not_or] at noEnd
      cases slot with
      | endEntry => exact absurd rfl noEnd.1
      | ramnode a => exact ⟨0, .inr ⟨a, rest, rfl⟩⟩
      | emptyEntry =>
          obtain ⟨n, rfl | ⟨a, post, rfl⟩⟩ := ih noEnd.2
          · exact ⟨n + 1, .inl rfl⟩
          · exact ⟨n + 1, .inr ⟨a, post, rfl⟩⟩

theorem entries_replicate (n : Nat) (rest : List Slot) :
    entries (List.replicate n .emptyEntry ++ rest) = entries rest := by
  induction n with
  | zero => rfl
  | succ n ih => exact ih

theorem Stores.iterateAll (stores : h.Stores chain nodes slots) (live : ∀ a ∈ entries slots, ∃ node, h.ramnode a = some node)
    {p rest : List Slot} {i : DirectoryIterator} {k : Nat} (split : slots = p ++ rest)
    (start : h.advance i = some (some (iterAt nodes p.length))) (enough : rest.length < k) :
    h.iterateAll k i = (entries rest).mapM h.fsNodeOf := by
  have space := stores.count
  have holds := stores.holds
  generalize size : rest.length = m at enough
  induction m using Nat.strongRecOn generalizing p rest i k with
  | ind m ih =>
      obtain ⟨k, rfl⟩ : ∃ n, k = n + 1 := ⟨k - 1, by omega⟩
      have noEnd : Slot.endEntry ∉ rest := fun inside => stores.noEnd (by rw [split]; exact List.mem_append_right _ inside)
      obtain ⟨n, all | ⟨a, post, found⟩⟩ := leading_empty noEnd
      · -- nothing but empty slots up to the mark behind them
        have ends : slots ++ List.replicate (nodes.length * 128 - slots.length) .endEntry =
            p ++ List.replicate n .emptyEntry ++ .endEntry ::
              List.replicate (nodes.length * 128 - slots.length - 1) .endEntry := by
          rw [← List.replicate_succ, Nat.sub_add_cancel (by omega), split, all]
        rw [Heap.iterateAll, holds.iterate_end ends start, all, ← List.append_nil (List.replicate n _),
          entries_replicate]
        rfl
      · have words : slots ++ List.replicate (nodes.length * 128 - slots.length) .endEntry =
            p ++ List.replicate n .emptyEntry ++ .ramnode a ::
              (post ++ List.replicate (nodes.length * 128 - slots.length) .endEntry) := by
          rw [split, found]
          simp
        obtain ⟨node, here⟩ := live a (by rw [split, found]; simp)
        have sizes : m = n + (post.length + 1) := by rw [← size, found]; simp
        have total : slots.length = p.length + m := by rw [split, List.length_append, size]
        have later := ih post.length (by omega) (p := p ++ List.replicate n .emptyEntry ++ [.ramnode a])
          (i := iterAt nodes (p.length + n)) (k := k) (by rw [split, found]; simp)
          (by rw [holds.advance_iterAt (by omega)]; simp [Nat.add_assoc]) rfl (by omega)
        rw [Heap.iterateAll, holds.iterate_ramnode words here start, found, entries_replicate, entries_ramnode,
          List.mapM_cons, fsNodeOf, here]
        simp only [Option.bind_eq_bind, Option.bind_some, later, Option.map_some]

theorem Directory.iterateAll_first {k : Nat} (dir : h.Directory chain nodes slots) (enough : slots.length < k) :
    h.iterateAll k ⟨-1, chain⟩ = (entries slots).mapM h.fsNodeOf := by
  have first : nodes[0]? = some chain := by
    rw [← List.head?_eq_getElem?]
    exact dir.linked.links.head.symm
  have start : h.advance ⟨-1, chain⟩ = some (some (iterAt nodes 0)) := by
    rw [advance, if_neg (show ¬ (-1 : Int) + 1 = directoryEntryCount by decide), iterAt, nodeOf, List.getD_eq_getElem?_getD, first]
    rfl
  exact dir.toStores.iterateAll dir.live (p := []) rfl start enough

theorem Directory.listDirectory {parent : Addr} {node : Ramnode} (dir : h.Directory chain nodes slots)
    (here : h.ramnode parent = some node) (data : node.data = some chain) :
    h.listDirectory parent = (entries slots).mapM h.fsNodeOf := by
  have bound := dir.linked.length_le
  have count := dir.count
  have all := dir.iterateAll_first (k := chainFuel * directoryEntryCount + 1) (by simp only [directoryEntryCount]; omega)
  simp only [Heap.listDirectory, ramfsSetupDirectoryIterator, here, data, Option.bind_eq_bind, Option.bind_some]
  exact all

/-! ## The emptiness check -/

theorem contentRound_ramnode {node : Ramnode} (here : h.ramnode a = some node) (b : Addr) (entryId : Nat) :
    h.contentRound b entryId (.ramnode a) () =
      some (if node.name ≠ dot ∧ node.name ≠ dotdot then .ret () else .next ()) := by
  simp only [contentRound, here, Option.bind_eq_bind, Option.bind_some]
  rfl

theorem leaves_content (h : Heap) (nodes : List Addr) :
    LeavesAtEnd fun k => h.contentRound (nodeOf nodes k) (k % 128) := by
  refine ⟨fun k b b' => by simp [contentRound], fun k slot b b' other => ?_⟩
  cases slot with
  | endEntry => exact absurd rfl other
  | emptyEntry => simp [contentRound]
  | ramnode a =>
      cases found : h.ramnode a with
      | none => simp [contentRound, found]
      | some node =>
          rw [contentRound_ramnode found]
          split_ifs <;> simp

def Dots (h : Heap) (a : Addr) : Prop := h.nameOf a = some dot ∨ h.nameOf a = some dotdot

instance (h : Heap) (a : Addr) : Decidable (h.Dots a) := inferInstanceAs (Decidable (_ ∨ _))

def OnlyDots (h : Heap) (slots : List Slot) : Prop := ∀ a ∈ entries slots, h.Dots a

theorem scan_content {rest : List Slot} {p : Nat} (noEnd : Slot.endEntry ∉ rest)
    (live : ∀ a ∈ entries rest, ∃ node, h.ramnode a = some node) :
    ∃ r, scanEntries (fun k => h.contentRound (nodeOf nodes k) (k % 128)) (rest ++ [.endEntry]) p () = some r ∧
      (r = .inl () ↔ .emptyEntry ∉ rest ∧ h.OnlyDots rest) := by
  induction rest generalizing p with
  | nil => exact ⟨.inl (), rfl, by simp [OnlyDots]⟩
  | cons slot rest ih =>
      rw [List.mem_cons, not_or] at noEnd
      rw [List.cons_append, scanEntries]
      cases slot with
      | endEntry => exact absurd rfl noEnd.1
      | emptyEntry => exact ⟨.inr (), rfl, by simp⟩
      | ramnode a =>
          obtain ⟨node, here⟩ := live a (by simp)
          obtain ⟨r, scan, passes⟩ := ih (p := p + 1) noEnd.2 fun b member => live b (by simp [member])
          have dots : h.Dots a ↔ node.name = dot ∨ node.name = dotdot := by simp [Dots, nameOf, here]
          by_cases other : node.name ≠ dot ∧ node.name ≠ dotdot
          · refine ⟨.inr (), by rw [contentRound_ramnode here, if_pos other]; rfl, ?_⟩
            simp only [OnlyDots, entries_ramnode, List.forall_mem_cons, dots]
            simp [other]
          · refine ⟨r, by rw [contentRound_ramnode here, if_neg other]; exact scan, ?_⟩
            rw [passes, OnlyDots, OnlyDots, entries_ramnode, List.forall_mem_cons, dots]
            simp only [List.mem_cons, reduceCtorEq, false_or]
            tauto

theorem Directory.passesEmptinessCheck {removeNode : FsNode} {node : Ramnode} (dir : h.Directory chain nodes slots)
    (here : h.ramnode removeNode.nodeAddr = some node) (data : node.data = some chain) :
    ∃ passes, h.passesEmptinessCheck removeNode = some passes ∧
      (passes = true ↔ .emptyEntry ∉ slots ∧ h.OnlyDots slots) := by
  obtain ⟨r, scan, passes⟩ := scan_content (p := 0) dir.noEnd dir.live
  have walk := dir.toStores.walk (b := ()) (leaves_content h nodes)
  rw [scan] at walk
  simp only [Heap.passesEmptinessCheck, here, data, walk, Option.bind_eq_bind, Option.bind_some, Option.map_some]
  cases r with
  | inl r => exact ⟨true, rfl, by simpa using passes⟩
  | inr r => exact ⟨false, rfl, by simpa using passes⟩

/-! ## `ramfs_add_entry` -/

-- the first empty slot, or the one behind the last
def hole (slots : List Slot) : Nat := slots.idxOf .emptyEntry

def firstEmpty (nodes : List Addr) (slots : List Slot) : Option (Addr × Nat) :=
  if .emptyEntry ∈ slots then some (nodeOf nodes (hole slots), hole slots % 128) else none

theorem firstEmpty_or (nodes : List Addr) (slots : List Slot) :
    (firstEmpty nodes slots).or (some (nodeOf nodes slots.length, slots.length % 128)) =
      some (nodeOf nodes (hole slots), hole slots % 128) := by
  rw [firstEmpty]
  split_ifs with found
  · rfl
  · rw [hole, List.idxOf_eq_length found]
    rfl

theorem firstEmpty_append_empty (nodes : List Addr) (slots : List Slot) :
    firstEmpty nodes (slots ++ [.emptyEntry]) =
      (firstEmpty nodes slots).or (some (nodeOf nodes slots.length, slots.length % 128)) := by
  rw [firstEmpty_or, firstEmpty, if_pos (by simp), hole, hole]
  by_cases found : Slot.emptyEntry ∈ slots
  · rw [List.idxOf_append_of_mem found]
  · rw [List.idxOf_append_of_notMem found, List.idxOf_eq_length found]
    simp

theorem firstEmpty_append_ramnode (nodes : List Addr) (slots : List Slot) (a : Addr) :
    firstEmpty nodes (slots ++ [.ramnode a]) = firstEmpty nodes slots := by
  by_cases found : Slot.emptyEntry ∈ slots
  · rw [firstEmpty, firstEmpty, if_pos found, if_pos (List.mem_append_left _ found), hole, hole,
      List.idxOf_append_of_mem found]
  · rw [firstEmpty, firstEmpty, if_neg found, if_neg (by simp [found])]

theorem addRound_ramnode {node : Ramnode} (here : h.ramnode a = some node) (name : Name) (b : Addr) (entryId : Nat)
    (empty : Option (Addr × Nat)) :
    h.addRound name b entryId (.ramnode a) empty = some (if node.name = name then .ret () else .next empty) := by
  simp only [addRound, here, Option.bind_eq_bind, Option.bind_some]
  rfl

theorem leaves_add (h : Heap) (name : Name) (nodes : List Addr) :
    LeavesAtEnd fun k => h.addRound name (nodeOf nodes k) (k % 128) := by
  refine ⟨fun k b b' => by simp [addRound], fun k slot b b' other => ?_⟩
  cases slot with
  | endEntry => exact absurd rfl other
  | emptyEntry => simp [addRound]
  | ramnode a =>
      cases found : h.ramnode a with
      | none => simp [addRound, found]
      | some node =>
          rw [addRound_ramnode found]
          split_ifs <;> simp

theorem scan_add {l : List Addr} {p rest : List Slot} {n : Name} (noEnd : Slot.endEntry ∉ rest)
    (live : ∀ a ∈ entries rest, ∃ node, h.ramnode a = some node) :
    scanEntries (fun k => h.addRound n (nodeOf l k) (k % 128)) (rest ++ [.endEntry]) p.length
      (firstEmpty l p) = some (if some n ∈ h.names rest then .inr ()
        else .inl (some (nodeOf l (hole (p ++ rest)), hole (p ++ rest) % 128))) := by
  induction rest generalizing p with
  | nil =>
      have last := firstEmpty_or l p
      simp [scanEntries, addRound, names, last]
  | cons slot rest ih =>
      rw [List.mem_cons, not_or] at noEnd
      have later := fun live => ih (p := p ++ [slot]) noEnd.2 live
      simp only [List.append_assoc, List.length_append, List.length_singleton, List.singleton_append] at later
      rw [List.cons_append, scanEntries]
      cases slot with
      | endEntry => exact absurd rfl noEnd.1
      | emptyEntry =>
          have := later fun b member => live b member
          rw [firstEmpty_append_empty] at this
          exact this
      | ramnode a =>
          obtain ⟨node, here⟩ := live a (by simp)
          have := later fun b member => live b (by simp [member])
          rw [firstEmpty_append_ramnode] at this
          have first : h.names (.ramnode a :: rest) = some node.name :: h.names rest := by
            simp [names, nameOf, here]
          by_cases same : node.name = n
          · rw [addRound_ramnode here, if_pos same, first, same, if_pos List.mem_cons_self]
            rfl
          · rw [addRound_ramnode here, if_neg same, first]
            simp only [List.mem_cons, Option.some.injEq, Ne.symm same, false_or]
            exact this

end Kerosene.Ramfs.Heap
