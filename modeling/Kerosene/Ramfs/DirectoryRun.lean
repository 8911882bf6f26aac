import Kerosene.Lib.Machine
import Kerosene.Ramfs.DirectoryWrites

/-!
# Directories over runs

Any number of directories live in one heap. Beside the heap a run keeps a record: for each
directory, the entries that were added successfully and not removed, as the calls reported them.
-/

namespace Kerosene.Ramfs
open Lib Heap

structure Recorded where
  heap : Heap
  recorded : Addr → Option (List (Name × Addr))

inductive DirCall where
  | allocate (grant : Datanodes.Grant Entries)
  | add (parent : Addr) (name : Name) (data : Option Addr) (flags size : BitVec 32) (grants : Grants)
  | remove (parent : Addr) (removeNode : FsNode) (removeContent : Bool)

def Heap.chainOf (h : Heap) (node : Addr) : Option Addr := (h.ramnode node).bind Ramnode.data

namespace Recorded
variable {r r' : Recorded} {d e a parent : Addr} {h h' : Heap} {nodes : Addr → List Addr} {slots : Addr → List Slot}

def created (r : Recorded) (d : Addr) : Addr → Option (List (Name × Addr)) := Function.update r.recorded d (some [])

def added (r : Recorded) (d : Addr) (name : Name) (a : Addr) : Addr → Option (List (Name × Addr)) :=
  Function.update r.recorded d ((r.recorded d).map ((name, a) :: ·))

def removed (r : Recorded) (d a : Addr) (freed : Option Addr) : Addr → Option (List (Name × Addr)) := fun e =>
  if some e = freed then none
  else if e = d then (r.recorded d).map (List.filter fun entry => entry.2 ≠ a) else r.recorded e

def exec (r : Recorded) : DirCall → Option Recorded
  | .allocate grant => do
      match ← r.heap.datanode.ramfsAllocateDatanodes 1 (some noEntries) [grant] with
      | (none, s) => return ⟨r.heap.withDatanodes s, r.recorded⟩
      | (some d, s) => return ⟨r.heap.withDatanodes s, r.created d⟩
  | .add parent name data flags size grants => do
      let d ← r.heap.chainOf parent
      match ← r.heap.ramfsAddEntry parent name data flags size grants with
      | (.error _, h) => return ⟨h, r.recorded⟩
      | (.ok node, h) => return ⟨h, r.added d name node.nodeAddr⟩
  | .remove parent removeNode removeContent => do
      let d ← r.heap.chainOf parent
      let target ← r.heap.ramnode removeNode.nodeAddr
      match ← r.heap.ramfsRemoveEntry parent removeNode removeContent with
      | (.success, h) => return ⟨h, r.removed d removeNode.nodeAddr (removedChain target removeContent)⟩
      | (_, h) => return ⟨h, r.recorded⟩

/-! ## What callers keep to -/

def Live (r : Recorded) (d : Addr) : Prop := (r.recorded d).isSome

-- `vfs_remove_node`, which alone removes content, refuses `.` and `..`: the content of every other
-- entry is its own
structure Owned (r : Recorded) (d : Addr) (content : Option Addr) (freed : List Addr) : Prop where
  chain : r.heap.datanode.Chain content freed
  notParent : content ≠ some d
  own : ∀ e, r.Live e → content ≠ some e → ∀ l, r.heap.datanode.Chain (some e) l → freed.Disjoint l

def Legal (r : Recorded) : DirCall → Prop
  | .allocate grant => ∀ a stale, grant = some (a, stale) → r.heap.ramnode a = none ∧ r.heap.datanode a = none
  | .add parent name _ _ _ grants =>
      (∃ d, r.heap.chainOf parent = some d ∧ r.Live d) ∧ name.length < filenameLimit ∧ Grants.Fresh grants r.heap
  | .remove parent removeNode removeContent =>
      ∃ d target freed, r.heap.chainOf parent = some d ∧ r.Live d ∧ r.heap.ramnode removeNode.nodeAddr = some target ∧
        r.Owned d (removedChain target removeContent) freed ∧
        (fsNodeType removeNode.flags = fsNodeTypeDirectory ∧ removeContent = true →
          ∃ c, target.data = some c ∧ r.Live c)

def directories : Machine Recorded DirCall where
  Legal := Legal
  step := exec

/-! ## The invariant -/

def labelled (h : Heap) (l : List Addr) : List (Option Name × Addr) := l.map fun a => (h.nameOf a, a)

theorem labelled_congr {l : List Addr} (same : ∀ a ∈ l, h'.ramnode a = h.ramnode a) : labelled h' l = labelled h l :=
  List.map_congr_left fun a member => by rw [nameOf, nameOf, same a member]

structure Kept (h : Heap) (d : Addr) (recorded : List (Name × Addr)) (nodes : List Addr) (slots : List Slot) : Prop
    extends Directory h d nodes slots where
  same : (recorded.map fun entry => (some entry.1, entry.2)).Perm (labelled h (entries slots))

structure Sound (r : Recorded) (nodes : Addr → List Addr) (slots : Addr → List Slot) : Prop where
  kept : ∀ d l, r.recorded d = some l → Kept r.heap d l (nodes d) (slots d)
  apart : ∀ d e, d ≠ e → r.Live d → r.Live e →
    (nodes d).Disjoint (nodes e) ∧ (entries (slots d)).Disjoint (entries (slots e))

theorem Sound.dir (sound : r.Sound nodes slots) (live : r.Live d) : r.heap.Directory d (nodes d) (slots d) := by
  obtain ⟨l, found⟩ := Option.isSome_iff_exists.mp live
  exact (sound.kept d l found).toDirectory

theorem Kept.congr {l : List (Name × Addr)} {ns : List Addr} {ss : List Slot} (kept : Kept h d l ns ss)
    (datanodes : ∀ b ∈ ns, h'.datanode b = h.datanode b) (ramnodes : ∀ a ∈ entries ss, h'.ramnode a = h.ramnode a) :
    Kept h' d l ns ss := by
  refine ⟨kept.toDirectory.congr datanodes ramnodes, ?_⟩
  rw [labelled_congr ramnodes]
  exact kept.same

theorem Sound.notFresh (sound : r.Sound nodes slots) (live : r.Live d) (fresh : r.heap.datanode a = none) :
    a ∉ nodes d := by
  intro member
  have := (sound.dir live).linked.allocated a member
  rw [fresh] at this
  cases this

theorem Sound.notListed (sound : r.Sound nodes slots) (live : r.Live d) (fresh : r.heap.ramnode a = none) :
    a ∉ entries (slots d) := by
  intro member
  obtain ⟨node, here⟩ := (sound.dir live).live a member
  rw [fresh] at here
  cases here

theorem Sound.change {recorded : Addr → Option (List (Name × Addr))} {l : List (Name × Addr)} {ns : List Addr}
    {ss : List Slot} (sound : r.Sound nodes slots) (here : recorded d = some l) (kept : Kept h' d l ns ss)
    (others : ∀ e l, e ≠ d → recorded e = some l → r.recorded e = some l)
    (datanodes : ∀ e, e ≠ d → (recorded e).isSome → ∀ b ∈ nodes e, h'.datanode b = r.heap.datanode b ∧ b ∉ ns)
    (ramnodes : ∀ e, e ≠ d → (recorded e).isSome → ∀ a ∈ entries (slots e), h'.ramnode a = r.heap.ramnode a ∧
      a ∉ entries ss) :
    Sound ⟨h', recorded⟩ (Function.update nodes d ns) (Function.update slots d ss) := by
  have before : ∀ e, e ≠ d → (recorded e).isSome → r.Live e := by
    intro e other live
    obtain ⟨l, found⟩ := Option.isSome_iff_exists.mp live
    rw [Live, others e l other found]
    rfl
  refine ⟨fun e l' found => ?_, fun e f differ liveE liveF => ?_⟩
  · by_cases same : e = d
    · subst same
      have : l = l' := Option.some.inj (here.symm.trans found)
      rw [Function.update_self, Function.update_self, ← this]
      exact kept
    · rw [Function.update_of_ne same, Function.update_of_ne same]
      have live : (recorded e).isSome := by rw [show recorded e = some l' from found]; rfl
      exact (sound.kept e l' (others e l' same found)).congr (fun b member => (datanodes e same live b member).1)
        fun a member => (ramnodes e same live a member).1
  · by_cases first : e = d
    · subst first
      rw [Function.update_self, Function.update_self, Function.update_of_ne differ.symm, Function.update_of_ne differ.symm]
      exact ⟨fun b new old => (datanodes f differ.symm liveF b old).2 new,
        fun a new old => (ramnodes f differ.symm liveF a old).2 new⟩
    · rw [Function.update_of_ne first, Function.update_of_ne first]
      by_cases second : f = d
      · subst second
        rw [Function.update_self, Function.update_self]
        exact ⟨fun b old new => (datanodes e first liveE b old).2 new,
          fun a old new => (ramnodes e first liveE a old).2 new⟩
      · rw [Function.update_of_ne second, Function.update_of_ne second]
        exact sound.apart e f differ (before e first liveE) (before f second liveF)

/-! ## Each call keeps it -/

theorem directory_empty (here : h.datanode d = some ⟨none, noEntries⟩) :
    h.Directory d [d] [] := by
  refine ⟨⟨⟨⟨rfl, ?_⟩, fun b member => ?_⟩, ?_, List.not_mem_nil, rfl⟩, rfl, by simp, List.nodup_nil⟩
  · rw [Datanodes.link, here]
    rfl
  · rw [List.mem_singleton.mp member, here]
    rfl
  · have row : h.row d = List.replicate 128 .endEntry := by
      rw [row, here]
      exact Vector.toList_replicate
    simp [row]

theorem sound_allocate {grant : Datanodes.Grant Entries} (sound : r.Sound nodes slots) (legal : r.Legal (.allocate grant)) :
    ∃ r' nodes' slots', r.exec (.allocate grant) = some r' ∧ r'.Sound nodes' slots' := by
  cases grant with
  | none => exact ⟨r, nodes, slots, rfl, sound⟩
  | some grant =>
      obtain ⟨d, stale⟩ := grant
      obtain ⟨noRamnode, noDatanode⟩ := legal d stale rfl
      generalize made : (r.heap.datanode.put d ⟨stale.next, noEntries⟩).setNext d none = s
      have here : s d = some ⟨none, noEntries⟩ := by
        rw [← made]
        simp [Datanodes.setNext, Datanodes.put]
      have kept : ∀ b, b ≠ d → s b = r.heap.datanode b := by
        intro b other
        rw [← made]
        simp [Datanodes.setNext, Datanodes.put, other]
      refine ⟨⟨r.heap.withDatanodes s, r.created d⟩, Function.update nodes d [d], Function.update slots d [],
        by rw [← made]; rfl, ?_⟩
      have dir : (r.heap.withDatanodes s).Directory d [d] [] := directory_empty here
      have others : ∀ e, e ≠ d → r.created d e = r.recorded e := fun e other => Function.update_of_ne other ..
      refine sound.change (Function.update_self ..) ⟨dir, .refl _⟩ (fun e l other found => ?_)
        (fun e other live b member => ?_) fun e other live a member => ⟨rfl, List.not_mem_nil⟩
      · rwa [others e other] at found
      · rw [others e other] at live
        have differ : b ≠ d := by
          rintro rfl
          exact sound.notFresh live noDatanode member
        exact ⟨kept b differ, by simp [differ]⟩

theorem chainOf_eq (chain : h.chainOf parent = some d) : ∃ node, h.ramnode parent = some node ∧ node.data = some d :=
  Option.bind_eq_some_iff.mp chain

theorem sound_add {name : Name} {data : Option Addr} {flags size : BitVec 32} {grants : Grants}
    (sound : r.Sound nodes slots) (legal : r.Legal (.add parent name data flags size grants)) :
    ∃ r' nodes' slots', r.exec (.add parent name data flags size grants) = some r' ∧ r'.Sound nodes' slots' := by
  obtain ⟨⟨d, chain, live⟩, short, fresh⟩ := legal
  obtain ⟨node, here, owns⟩ := chainOf_eq chain
  rcases ramfsAddEntry_spec (d := data) (f := flags) (n := size) (sound.dir live) here owns short fresh with
    ⟨-, call⟩ | ⟨-, call⟩ | ⟨new, a, ramnode, h', ns, granted, named, call, adds, dir⟩
  · exact ⟨r, nodes, slots, by simp only [exec, chain, call, Option.bind_eq_bind, Option.bind_some]; rfl, sound⟩
  · exact ⟨r, nodes, slots, by simp only [exec, chain, call, Option.bind_eq_bind, Option.bind_some]; rfl, sound⟩
  · refine ⟨⟨h', r.added d name a⟩, Function.update nodes d ns, Function.update slots d (insertEntry (slots d) a),
      by simp only [exec, chain, call, Option.bind_eq_bind, Option.bind_some]; rfl, ?_⟩
    obtain ⟨l, found⟩ := Option.isSome_iff_exists.mp live
    obtain ⟨unused, -⟩ := fresh.ramnode a granted
    have others : ∀ e, e ≠ d → r.added d name a e = r.recorded e := fun e other => Function.update_of_ne other ..
    have old : ∀ e, r.Live e → ∀ b ∈ entries (slots e), b ≠ a ∧ h'.ramnode b = r.heap.ramnode b := by
      intro e liveE b member
      have differ : b ≠ a := by
        rintro rfl
        exact sound.notListed liveE unused member
      exact ⟨differ, by rw [adds.ramnode, Function.update_of_ne differ]⟩
    obtain ⟨left, right, split, inserted⟩ := entries_insertEntry (slots d) a
    refine sound.change (l := (name, a) :: l) ?_ ⟨dir, ?_⟩ (fun e l other found => ?_)
      (fun e other liveE b member => ?_) fun e other liveE b member => ?_
    · rw [added, Function.update_self, found]
      rfl
    · have same := (sound.kept d l found).same
      have kept : labelled h' (entries (slots d)) = labelled r.heap (entries (slots d)) :=
        labelled_congr fun b member => (old d live b member).2
      rw [← kept, split] at same
      have nameA : h'.nameOf a = some name := by rw [nameOf, adds.ramnode, Function.update_self, ← named]; rfl
      rw [inserted, labelled, List.map_append, List.map_cons, List.map_cons, nameA]
      rw [labelled, List.map_append] at same
      exact (same.cons (some name, a)).trans List.perm_middle.symm
    · rwa [others e other] at found
    · rw [others e other] at liveE
      have apart := (sound.apart e d other liveE live).1
      have outside : b ∉ ns := by
        intro new
        rcases adds.grown b new with inside | grant
        · exact apart member inside
        · exact sound.notFresh liveE (fresh.datanode b grant).2 member
      exact ⟨adds.datanode b outside, outside⟩
    · rw [others e other] at liveE
      obtain ⟨differ, kept⟩ := old e liveE b member
      refine ⟨kept, fun new => ?_⟩
      rw [inserted, List.mem_append, List.mem_cons] at new
      refine (sound.apart e d other liveE live).2 member ?_
      rw [split, List.mem_append]
      tauto

theorem labelled_erase {E : List Addr} (nodup : E.Nodup) (h : Heap) (a : Addr) :
    (labelled h E).filter (fun entry => entry.2 ≠ a) = labelled h (E.erase a) := by
  rw [labelled, labelled, List.filter_map, nodup.erase_eq_filter]
  congr 2
  funext b
  by_cases same : b = a <;> simp [same]

theorem Owned.disjoint {content : Option Addr} {freed : List Addr} (owned : r.Owned d content freed)
    (sound : r.Sound nodes slots) (live : r.Live e) (other : content ≠ some e) : freed.Disjoint (nodes e) :=
  owned.own e live other _ (sound.dir live).linked

section Remove
variable {removeNode : FsNode} {removeContent : Bool} {target : Ramnode} {freed : List Addr}

theorem passes_or_refuses {p : Addr} (sound : r.Sound nodes slots) (found : r.heap.ramnode removeNode.nodeAddr = some target)
    (subdirectory : fsNodeType removeNode.flags = fsNodeTypeDirectory ∧ removeContent = true →
      ∃ c, target.data = some c ∧ r.Live c) :
    r.heap.ramfsRemoveEntry p removeNode removeContent = some (.dirNotEmpty, r.heap) ∨
      r.heap.ramfsRemoveEntry p removeNode removeContent =
        r.heap.removeFound p removeNode removeContent := by
  by_cases checked : fsNodeType removeNode.flags = fsNodeTypeDirectory ∧ removeContent = true
  · obtain ⟨c, data, live⟩ := subdirectory checked
    obtain ⟨passes, check, -⟩ := (sound.dir live).passesEmptinessCheck found data
    cases passes with
    | false =>
        left
        simp only [ramfsRemoveEntry, if_pos checked, check, Option.bind_eq_bind, Option.bind_some]
        rfl
    | true =>
        right
        simp only [ramfsRemoveEntry, if_pos checked, check, Option.bind_eq_bind, Option.bind_some, if_true]
  · right
    simp only [ramfsRemoveEntry, if_neg checked, Option.bind_eq_bind, Option.bind_some, if_true]

theorem sound_removed {h' : Heap} {ns : List Addr} {ss : List Slot} (sound : r.Sound nodes slots) (live : r.Live d)
    (owned : r.Owned d (removedChain target removeContent) freed) (listed : a ∈ entries (slots d))
    (drops : Drops r.heap h' a freed (nodes d)) (dir : h'.Directory d ns ss) (inside : ∀ b ∈ ns, b ∈ nodes d)
    (gone : entries ss = (entries (slots d)).erase a) :
    Sound ⟨h', r.removed d a (removedChain target removeContent)⟩ (Function.update nodes d ns)
      (Function.update slots d ss) := by
  obtain ⟨l, found⟩ := Option.isSome_iff_exists.mp live
  have nodup := (sound.dir live).nodup
  have others : ∀ e l, e ≠ d → r.removed d a (removedChain target removeContent) e = some l →
      removedChain target removeContent ≠ some e ∧ r.recorded e = some l := by
    intro e l other recorded
    rw [removed] at recorded
    split_ifs at recorded with first
    exact ⟨fun same => first same.symm, recorded⟩
  have before : ∀ e, e ≠ d → (r.removed d a (removedChain target removeContent) e).isSome →
      removedChain target removeContent ≠ some e ∧ r.Live e := by
    intro e other liveE
    obtain ⟨l, recorded⟩ := Option.isSome_iff_exists.mp liveE
    obtain ⟨differ, same⟩ := others e l other recorded
    exact ⟨differ, by rw [Live, same]; rfl⟩
  refine sound.change (l := l.filter fun entry => entry.2 ≠ a) ?_ ⟨dir, ?_⟩
    (fun e l other recorded => (others e l other recorded).2) (fun e other liveE b member => ?_)
    fun e other liveE b member => ?_
  · rw [removed, if_neg (Ne.symm owned.notParent), if_pos rfl, found]
    rfl
  · have same := (sound.kept d l found).same.filter fun entry => entry.2 ≠ a
    rw [labelled_erase nodup, List.filter_map] at same
    have kept : labelled h' (entries ss) = labelled r.heap (entries ss) := by
      refine labelled_congr fun b member => ?_
      rw [gone, nodup.mem_erase_iff] at member
      rw [drops.ramnode, Function.update_of_ne member.1]
    rw [kept, gone]
    exact same
  · obtain ⟨differ, live'⟩ := before e other liveE
    have apart := (sound.apart e d other live' live).1
    refine ⟨drops.datanode b (fun both => apart member both) fun free => ?_, fun new => apart member (inside b new)⟩
    exact owned.disjoint sound live' differ free member
  · obtain ⟨-, live'⟩ := before e other liveE
    have apart := (sound.apart e d other live' live).2
    have differ : b ≠ a := by
      rintro rfl
      exact apart member listed
    refine ⟨by rw [drops.ramnode, Function.update_of_ne differ], fun new => ?_⟩
    rw [gone] at new
    exact apart member (List.mem_of_mem_erase new)

theorem sound_remove (sound : r.Sound nodes slots) (legal : r.Legal (.remove parent removeNode removeContent)) :
    ∃ r' nodes' slots', r.exec (.remove parent removeNode removeContent) = some r' ∧ r'.Sound nodes' slots' := by
  obtain ⟨d, target, freed, chain, live, found, owned, subdirectory⟩ := legal
  obtain ⟨node, here, owns⟩ := chainOf_eq chain
  rcases passes_or_refuses (p := parent) sound found subdirectory with refused | passed
  · exact ⟨r, nodes, slots, by simp only [exec, chain, found, refused, Option.bind_eq_bind, Option.bind_some]; rfl, sound⟩
  · rcases removeFound_spec (sound.dir live) here owns found owned.chain
      (owned.disjoint sound live owned.notParent) with ⟨-, call⟩ | ⟨listed, h', n, ss, call, drops, dir, gone⟩
    · refine ⟨r, nodes, slots, ?_, sound⟩
      simp only [exec, chain, found, passed, call, Option.bind_eq_bind, Option.bind_some]
      rfl
    · refine ⟨⟨h', r.removed d removeNode.nodeAddr (removedChain target removeContent)⟩, _, _, ?_,
        sound_removed sound live owned listed drops dir (fun b member => List.mem_of_mem_take member) gone⟩
      simp only [exec, chain, found, passed, call, Option.bind_eq_bind, Option.bind_some]
      rfl

end Remove

theorem sound_exec {call : DirCall} (sound : r.Sound nodes slots) (legal : r.Legal call) :
    ∃ r' nodes' slots', r.exec call = some r' ∧ r'.Sound nodes' slots' := by
  cases call with
  | allocate grant => exact sound_allocate sound legal
  | add parent name data flags size grants => exact sound_add sound legal
  | remove parent removeNode removeContent => exact sound_remove sound legal

/-! ## Whole runs -/

def slash : Name := "/".toUTF8.toList

-- the root directory as `ramfs_init` leaves it
def ramfsInit (root chain : Addr) : Recorded where
  heap :=
    { ramnode := Function.update (fun _ => none) root (some ⟨slash, fsNodeTypeDirectory, 0#32, some chain⟩)
      datanode := Datanodes.put (fun _ => none) chain ⟨none, noEntries⟩ }
  recorded := Function.update (fun _ => none) chain (some [])

theorem ramfsInit_sound (root chain : Addr) : (ramfsInit root chain).Sound (fun d => [d]) fun _ => [] := by
  have only : ∀ d, (ramfsInit root chain).Live d → d = chain := by
    intro d live
    by_contra other
    simp [Live, ramfsInit, other] at live
  refine ⟨fun d l found => ?_, fun d e differ liveD liveE => absurd ((only d liveD).trans (only e liveE).symm) differ⟩
  have : d = chain := only d (by rw [Live, found]; rfl)
  subst this
  have empty : [] = l := by simpa [ramfsInit] using found
  subst empty
  refine ⟨directory_empty ?_, .refl _⟩
  simp [ramfsInit, Datanodes.put]

theorem sound_of_reaches {root chain : Addr} (run : directories.Reaches (ramfsInit root chain) r) :
    ∃ nodes slots, r.Sound nodes slots := by
  refine run.invariant (I := fun r => ∃ nodes slots, r.Sound nodes slots) ?_ ⟨_, _, ramfsInit_sound root chain⟩
  rintro r call r' ⟨nodes, slots, sound⟩ legal step
  obtain ⟨r'', nodes', slots', done, sound'⟩ := sound_exec sound legal
  have same : some r'' = some r' := done.symm.trans step
  cases same
  exact ⟨nodes', slots', sound'⟩

end Recorded
end Kerosene.Ramfs
