import Kerosene.Ramfs.DirectoryRun

/-!
# A directory is an ordered set of entries
-/

namespace Kerosene.Ramfs
open Lib Heap

namespace Heap
variable {h h' : Heap} {d a : Addr} {nodes : List Addr} {slots : List Slot}

/-- The directory lists `l`, whichever ramnode names it. -/
def Lists (h : Heap) (d : Addr) (l : List FsNode) : Prop := ∀ node, h.chainOf node = some d → h.listDirectory node = some l

-- some entry of the directory is `EMPTY_ENTRY`
def HasHole (h : Heap) (d : Addr) : Prop :=
  ∃ nodes, h.datanode.Chain (some d) nodes ∧ .emptyEntry ∈ (nodes.map h.row).flatten

def listing (h : Heap) (slots : List Slot) : List FsNode := (entries slots).filterMap h.fsNodeOf

theorem mapM_fsNodeOf {E : List Addr} (live : ∀ a ∈ E, ∃ node, h.ramnode a = some node) :
    E.mapM h.fsNodeOf = some (E.filterMap h.fsNodeOf) := by
  induction E with
  | nil => rfl
  | cons a E ih =>
      obtain ⟨node, here⟩ := live a List.mem_cons_self
      have first : h.fsNodeOf a = some (toFsNode a node) := by rw [fsNodeOf, here]; rfl
      rw [List.mapM_cons, ih fun b member => live b (List.mem_cons_of_mem a member), List.filterMap_cons, first]
      rfl

theorem Directory.lists (dir : h.Directory d nodes slots) : h.Lists d (h.listing slots) := by
  intro node chain
  obtain ⟨ramnode, here, owns⟩ := Recorded.chainOf_eq chain
  rw [dir.listDirectory here owns, mapM_fsNodeOf dir.live, listing]

theorem Directory.lists_unique {node : Addr} {l : List FsNode} (dir : h.Directory d nodes slots)
    (chain : h.chainOf node = some d) (lists : h.Lists d l) : l = h.listing slots :=
  Option.some.inj ((lists node chain).symm.trans (dir.lists node chain))

theorem listing_congr (same : ∀ a ∈ entries slots, h'.ramnode a = h.ramnode a) : h'.listing slots = h.listing slots :=
  List.filterMap_congr fun a member => by rw [fsNodeOf, fsNodeOf, same a member]

theorem map_filterMap_fsNodeOf {β : Type} {E : List Addr} {f : FsNode → β} {g : Addr → β}
    (live : ∀ a ∈ E, ∃ node, h.ramnode a = some node ∧ f (toFsNode a node) = g a) :
    (E.filterMap h.fsNodeOf).map f = E.map g := by
  induction E with
  | nil => rfl
  | cons a E ih =>
      obtain ⟨node, here, value⟩ := live a List.mem_cons_self
      have first : h.fsNodeOf a = some (toFsNode a node) := by rw [fsNodeOf, here]; rfl
      rw [List.filterMap_cons, first, List.map_cons, List.map_cons, value,
        ih fun b member => live b (List.mem_cons_of_mem a member)]

section Listing
variable (dir : h.Directory d nodes slots)
include dir

theorem Directory.listing_labelled :
    ((h.listing slots).map fun node => (some node.name, node.nodeAddr)) = Recorded.labelled h (entries slots) := by
  refine map_filterMap_fsNodeOf fun a member => ?_
  obtain ⟨node, here⟩ := dir.live a member
  exact ⟨node, here, by rw [nameOf, here]; rfl⟩

theorem Directory.listing_addrs : (h.listing slots).map FsNode.nodeAddr = entries slots := by
  have addrs := map_filterMap_fsNodeOf (f := FsNode.nodeAddr) (g := id) fun a member => by
    obtain ⟨node, here⟩ := dir.live a member
    exact ⟨node, here, rfl⟩
  rwa [List.map_id] at addrs

theorem Directory.listing_names : ((h.listing slots).map FsNode.name).map some = h.names slots := by
  rw [List.map_map]
  refine map_filterMap_fsNodeOf fun a member => ?_
  obtain ⟨node, here⟩ := dir.live a member
  exact ⟨node, here, by rw [nameOf, here]; rfl⟩

theorem Directory.mem_listing_names (name : Name) :
    name ∈ (h.listing slots).map FsNode.name ↔ some name ∈ h.names slots := by
  rw [← dir.listing_names, List.mem_map_of_injective (Option.some_injective _)]

theorem Directory.nodup_listing_names : ((h.listing slots).map FsNode.name).Nodup := by
  have distinct := dir.distinct
  rw [← dir.listing_names] at distinct
  exact distinct.of_map

theorem Directory.onlyDots_iff :
    (∀ node ∈ h.listing slots, node.name = dot ∨ node.name = dotdot) ↔ h.OnlyDots slots := by
  have named : (∀ node ∈ h.listing slots, node.name = dot ∨ node.name = dotdot) ↔
      ∀ name ∈ ((h.listing slots).map FsNode.name).map some, name = some dot ∨ name = some dotdot := by simp
  rw [named, dir.listing_names, names]
  simp [OnlyDots, Dots]

theorem Directory.hasHole_iff : h.HasHole d ↔ .emptyEntry ∈ slots := by
  have words : Slot.emptyEntry ∈ (nodes.map h.row).flatten ↔ .emptyEntry ∈ slots := by
    rw [dir.words, List.mem_append, List.mem_replicate]
    simp
  rw [← words]
  constructor
  · rintro ⟨other, chain, inside⟩
    rwa [chain.links.unique dir.linked.links] at inside
  · exact fun inside => ⟨nodes, dir.linked, inside⟩

/-- The directories of `ramfs_mkdir` start with `.` and `..`; the check never mistakes those. -/
theorem Directory.noHole_of_dots_first {x y : Addr} {rest : List Slot} (split : slots = .ramnode x :: .ramnode y :: rest)
    (first : h.nameOf x = some dot) (second : h.nameOf y = some dotdot) (onlyDots : h.OnlyDots slots) :
    ¬ h.HasHole d := by
  rw [dir.hasHole_iff]
  have distinct := dir.distinct
  rw [names, split, entries_ramnode, entries_ramnode, List.map_cons, List.map_cons, first, second,
    List.nodup_cons, List.nodup_cons] at distinct
  have none : entries rest = [] := by
    refine List.eq_nil_iff_forall_not_mem.mpr fun a member => ?_
    have name := List.mem_map_of_mem (f := h.nameOf) member
    rcases onlyDots a (by rw [split, entries_ramnode, entries_ramnode]; simp [member]) with isDot | isDotdot
    · rw [isDot] at name
      exact distinct.1 (List.mem_cons_of_mem _ name)
    · rw [isDotdot] at name
      exact distinct.2.1 name
  -- what is left behind the dots is empty, and the row does not end in an empty slot
  cases rest using List.reverseRecOn with
  | nil => simp [split]
  | append_singleton rest slot =>
      have trimmed := trim_eq_self.mp dir.trimmed
      rw [split, ← List.cons_append, ← List.cons_append, List.getLast?_concat] at trimmed
      have noEnd := dir.noEnd
      cases slot with
      | emptyEntry => exact absurd rfl trimmed
      | endEntry => exact absurd (by simp [split]) noEnd
      | ramnode a => simp at none

end Listing

theorem listing_erase (nodup : (entries slots).Nodup) {slots' : List Slot}
    (gone : entries slots' = (entries slots).erase a) (ramnodes : h'.ramnode = Function.update h.ramnode a none) :
    h'.listing slots' = (h.listing slots).filter fun node => node.nodeAddr ≠ a := by
  have same : h'.listing slots' = h.listing slots' := listing_congr fun b member => by
    rw [gone, nodup.mem_erase_iff] at member
    rw [ramnodes, Function.update_of_ne member.1]
  rw [same, listing, gone, nodup.erase_eq_filter, listing, List.filter_filterMap, List.filterMap_filter]
  refine List.filterMap_congr fun b _ => ?_
  cases here : h.ramnode b with
  | none => simp [fsNodeOf, here]
  | some node =>
      by_cases same : b = a
      · subst same
        simp [fsNodeOf, here, toFsNode, Option.filter]
      · simp [fsNodeOf, here, toFsNode, Option.filter, same]

end Heap

namespace Recorded
variable {r : Recorded} {d e a parent : Addr} {h' : Heap} {nodes : Addr → List Addr} {slots : Addr → List Slot}

theorem Owned.of_live {c : Addr} (sound : r.Sound nodes slots) (live : r.Live c) (other : c ≠ d) :
    r.Owned d (some c) (nodes c) := by
  refine ⟨(sound.dir live).linked, fun same => other (Option.some.inj same), fun e liveE differ l chain => ?_⟩
  rw [chain.links.unique (sound.dir liveE).linked.links]
  exact (sound.apart c e (fun same => differ (congrArg some same)) live liveE).1

/-- What the calls report about a directory that lists `l`. -/
structure OrderedSet (r : Recorded) (d : Addr) (recorded : List (Name × Addr)) (l : List FsNode) : Prop where
  lists : r.heap.Lists d l
  exactly : (l.map fun node => (node.name, node.nodeAddr)).Perm recorded
  once : (l.map FsNode.nodeAddr).Nodup
  distinct : (l.map FsNode.name).Nodup
  existed : ∀ parent name data flags size grants, r.heap.chainOf parent = some d →
    r.Legal (.add parent name data flags size grants) →
    ∃ result h', r.heap.ramfsAddEntry parent name data flags size grants = some (result, h') ∧
      (result = .error .entryExisted ↔ name ∈ l.map FsNode.name)
  removes : ∀ parent removeNode removeContent, r.heap.chainOf parent = some d →
    r.Legal (.remove parent removeNode removeContent) →
    ∃ err h', r.heap.ramfsRemoveEntry parent removeNode removeContent = some (err, h') ∧
      (err ≠ .success → h' = r.heap) ∧
      (err = .success → removeNode.nodeAddr ∈ l.map FsNode.nodeAddr ∧
        h'.Lists d (l.filter fun node => node.nodeAddr ≠ removeNode.nodeAddr) ∧
        ∀ e le, e ≠ d → r.Live e → r.heap.chainOf removeNode.nodeAddr ≠ some e → r.heap.Lists e le → h'.Lists e le)

section Calls
variable (sound : r.Sound nodes slots) (live : r.Live d)
include sound live

theorem existed_iff {name : Name} {data : Option Addr} {flags size : BitVec 32} {grants : Grants}
    (chain : r.heap.chainOf parent = some d) (legal : r.Legal (.add parent name data flags size grants)) :
    ∃ result h', r.heap.ramfsAddEntry parent name data flags size grants = some (result, h') ∧
      (result = .error .entryExisted ↔ name ∈ (r.heap.listing (slots d)).map FsNode.name) := by
  obtain ⟨-, short, fresh⟩ := legal
  obtain ⟨node, here, owns⟩ := chainOf_eq chain
  have dir := sound.dir live
  rw [dir.mem_listing_names]
  rcases ramfsAddEntry_spec dir here owns short fresh with
    ⟨listed, call⟩ | ⟨new, call⟩ | ⟨new, a, ramnode, h', ns, -, -, call, -⟩
  · exact ⟨_, _, call, fun _ => listed, fun _ => rfl⟩
  · exact ⟨_, _, call, by simp [new]⟩
  · exact ⟨_, _, call, by simp [new]⟩

theorem drops_lists {freed : List Addr} {content : Option Addr} {removed : Addr} {le : List FsNode}
    (owned : r.Owned d content freed) (drops : Drops r.heap h' removed freed (nodes d))
    (listed : removed ∈ entries (slots d)) (other : e ≠ d) (liveE : r.Live e) (differ : content ≠ some e)
    (lists : r.heap.Lists e le) : h'.Lists e le := by
  have apart := sound.apart e d other liveE live
  have ramnodes : ∀ b ∈ entries (slots e), h'.ramnode b = r.heap.ramnode b := by
    intro b member
    rw [drops.ramnode]
    refine Function.update_of_ne ?_ ..
    rintro rfl
    exact apart.2 member listed
  obtain ⟨l, found⟩ := Option.isSome_iff_exists.mp liveE
  have kept := (sound.kept e l found).congr (fun b member => drops.datanode b (fun both => apart.1 member both)
    fun free => owned.disjoint sound liveE differ free member) ramnodes
  intro node chain
  -- the node that names the directory now did so before
  have before : r.heap.chainOf node = some e := by
    rw [chainOf, drops.ramnode] at chain
    by_cases same : node = removed
    · rw [same, Function.update_self] at chain
      cases chain
    · rwa [Function.update_of_ne same] at chain
  rw [kept.lists node chain, listing_congr ramnodes, (sound.dir liveE).lists_unique before lists]

theorem removes_exactly {removeNode : FsNode} {removeContent : Bool} (chain : r.heap.chainOf parent = some d)
    (legal : r.Legal (.remove parent removeNode removeContent)) :
    ∃ err h', r.heap.ramfsRemoveEntry parent removeNode removeContent = some (err, h') ∧
      (err ≠ .success → h' = r.heap) ∧
      (err = .success → removeNode.nodeAddr ∈ (r.heap.listing (slots d)).map FsNode.nodeAddr ∧
        h'.Lists d ((r.heap.listing (slots d)).filter fun node => node.nodeAddr ≠ removeNode.nodeAddr) ∧
        ∀ e le, e ≠ d → r.Live e → r.heap.chainOf removeNode.nodeAddr ≠ some e → r.heap.Lists e le → h'.Lists e le) := by
  obtain ⟨d', target, freed, chain', -, found, owned, subdirectory⟩ := legal
  cases Option.some.inj (chain.symm.trans chain')
  obtain ⟨node, here, owns⟩ := chainOf_eq chain
  have dir := sound.dir live
  rw [dir.listing_addrs]
  rcases passes_or_refuses sound found subdirectory with refused | passed
  · exact ⟨_, _, refused, fun _ => rfl, by simp⟩
  · rw [passed]
    rcases removeFound_spec dir here owns found owned.chain (owned.disjoint sound live owned.notParent) with
      ⟨-, call⟩ | ⟨listed, h', n, ss, call, drops, dir', gone⟩
    · exact ⟨_, _, call, fun _ => rfl, by simp⟩
    · refine ⟨_, _, call, by simp, fun _ => ⟨listed, ?_, fun e le other liveE differ lists => ?_⟩⟩
      · rw [← listing_erase dir.nodup gone drops.ramnode]
        exact dir'.lists
      · refine drops_lists sound live owned drops listed other liveE (fun same => differ ?_) lists
        rw [removedChain] at same
        split_ifs at same
        rw [chainOf, found]
        exact same

theorem orderedSet {recorded : List (Name × Addr)} (found : r.recorded d = some recorded) :
    r.OrderedSet d recorded (r.heap.listing (slots d)) := by
  have dir := sound.dir live
  refine ⟨dir.lists, ?_, ?_, dir.nodup_listing_names, fun _ _ _ _ _ _ chain legal => existed_iff sound live chain legal,
    fun _ _ _ chain legal => removes_exactly sound live chain legal⟩
  · have same := (sound.kept d recorded found).same
    rw [← dir.listing_labelled] at same
    have injective : Function.Injective fun entry : Name × Addr => (some entry.1, entry.2) := by
      rintro ⟨name, a⟩ ⟨name', a'⟩ equal
      simpa using equal
    refine ((List.map_perm_map_iff injective).mp ?_).symm
    rw [List.map_map]
    exact same
  · rw [dir.listing_addrs]
    exact dir.nodup

end Calls

theorem refuses_iff {removeNode : FsNode} {c : Addr} {l : List FsNode} (sound : r.Sound nodes slots)
    (legal : r.Legal (.remove parent removeNode true)) (subdirectory : fsNodeType removeNode.flags = fsNodeTypeDirectory)
    (chain : r.heap.chainOf removeNode.nodeAddr = some c) (lists : r.heap.Lists c l) :
    ∃ err h', r.heap.ramfsRemoveEntry parent removeNode true = some (err, h') ∧
      (err ≠ .dirNotEmpty ↔ ¬ r.heap.HasHole c ∧ ∀ node ∈ l, node.name = dot ∨ node.name = dotdot) := by
  obtain ⟨d, target, freed, chainD, live, found, owned, content⟩ := legal
  obtain ⟨c', data, liveC⟩ := content ⟨subdirectory, rfl⟩
  have : c' = c := by
    rw [chainOf, found, Option.bind_some, data] at chain
    exact Option.some.inj chain
  subst this
  obtain ⟨node, here, owns⟩ := chainOf_eq chainD
  have dir := sound.dir liveC
  obtain ⟨passes, check, iff⟩ := dir.passesEmptinessCheck found data
  rw [dir.lists_unique chain lists, dir.onlyDots_iff, dir.hasHole_iff, ← iff]
  cases passes with
  | false =>
      refine ⟨.dirNotEmpty, r.heap, ?_, by simp⟩
      simp only [ramfsRemoveEntry, subdirectory, true_and, if_true, check, Option.bind_eq_bind, Option.bind_some]
      rfl
  | true =>
      have passed : r.heap.ramfsRemoveEntry parent removeNode true = r.heap.removeFound parent removeNode true := by
        simp only [ramfsRemoveEntry, subdirectory, true_and, if_true, check, Option.bind_eq_bind, Option.bind_some]
      rw [passed]
      rcases removeFound_spec (sound.dir live) here owns found owned.chain
        (owned.disjoint sound live owned.notParent) with ⟨-, call⟩ | ⟨-, h', n, ss, call, -⟩
      · exact ⟨_, _, call, by simp⟩
      · exact ⟨_, _, call, by simp⟩

/-- In every state a run reaches, every directory is an ordered set of the entries added and not
removed. A subdirectory passes the emptiness check when it lists nothing but `.` and `..`, unless a
removal left an `EMPTY_ENTRY` in it. -/
theorem directory_is_ordered_set (root chain : Addr) (r : Recorded)
    (run : directories.Reaches (ramfsInit root chain) r) :
    (∀ d recorded, r.recorded d = some recorded → ∃ l, r.OrderedSet d recorded l) ∧
    ∀ parent removeNode c l, r.Legal (.remove parent removeNode true) →
      fsNodeType removeNode.flags = fsNodeTypeDirectory → r.heap.chainOf removeNode.nodeAddr = some c →
      r.heap.Lists c l →
      ∃ err h', r.heap.ramfsRemoveEntry parent removeNode true = some (err, h') ∧
        ((err ≠ .dirNotEmpty ↔ ∀ node ∈ l, node.name = dot ∨ node.name = dotdot) ↔
          ((∀ node ∈ l, node.name = dot ∨ node.name = dotdot) → ¬ r.heap.HasHole c)) := by
  obtain ⟨nodes, slots, sound⟩ := sound_of_reaches run
  refine ⟨fun d recorded found => ?_, fun parent removeNode c l legal subdirectory chain lists => ?_⟩
  · exact ⟨_, orderedSet sound (by rw [Live, found]; rfl) found⟩
  · obtain ⟨err, h', call, refuses⟩ := refuses_iff sound legal subdirectory chain lists
    exact ⟨err, h', call, by rw [refuses, and_iff_right_iff_imp]⟩

/-! ## A subdirectory that lists only dots and is refused -/

def after (r : Recorded) (call : DirCall) : Recorded := (r.exec call).getD r

theorem reaches_after {root chain : Addr} {call : DirCall} (run : directories.Reaches (ramfsInit root chain) r)
    (legal : r.Legal call) : directories.Reaches (ramfsInit root chain) (r.after call) := by
  obtain ⟨nodes, slots, sound⟩ := sound_of_reaches run
  obtain ⟨r', _, _, step, -⟩ := sound_exec sound legal
  rw [after, step]
  exact run.snoc legal step

def grantsFor (a : Addr) : Grants := ⟨some a, none, true, none⟩

-- `name` can be added to the directory `parent` under a node at `a`
def Ready (r : Recorded) (parent d a : Addr) (name : Name) : Prop :=
  r.heap.chainOf parent = some d ∧ (r.recorded d).isSome ∧ name.length < filenameLimit ∧
    r.heap.ramnode a = none ∧ r.heap.datanode a = none

instance {name : Name} : Decidable (r.Ready parent d a name) := inferInstanceAs (Decidable (_ ∧ _))

theorem legal_add {name : Name} {data : Option Addr} {flags size : BitVec 32} (ready : r.Ready parent d a name) :
    r.Legal (.add parent name data flags size (grantsFor a)) := by
  obtain ⟨chain, live, short, noRamnode, noDatanode⟩ := ready
  refine ⟨⟨d, chain, live⟩, short, ⟨?_, ?_, ?_⟩⟩
  · intro b granted
    cases granted
    exact ⟨noRamnode, noDatanode⟩
  · intro b granted
    cases granted
  · intro b c _ granted
    cases granted

def subNode : FsNode := ⟨"d".toUTF8.toList, fsNodeTypeDirectory, 0#32, 11⟩
def fileNode : FsNode := ⟨"a".toUTF8.toList, fsNodeTypeFile, 0#32, 12⟩

-- a subdirectory `d` gets `a`, `.` and `..`, and loses `a` again
def withRoom : Recorded := (ramfsInit 10 20).after (.allocate (some (21, ⟨none, noEntries⟩)))
def withSub : Recorded := withRoom.after (.add 10 "d".toUTF8.toList (some 21) fsNodeTypeDirectory 0#32 (grantsFor 11))
def withFile : Recorded := withSub.after (.add 11 "a".toUTF8.toList none fsNodeTypeFile 0#32 (grantsFor 12))
def withDot : Recorded := withFile.after (.add 11 dot (some 21) fsNodeTypeDirectory 0#32 (grantsFor 13))
def withDots : Recorded := withDot.after (.add 11 dotdot (some 20) fsNodeTypeDirectory 0#32 (grantsFor 14))
def onlyDotsLeft : Recorded := withDots.after (.remove 11 fileNode false)

theorem withDots_ready : ((ramfsInit 10 20).heap.ramnode 21 = none ∧ (ramfsInit 10 20).heap.datanode 21 = none) ∧
    withRoom.Ready 10 20 11 "d".toUTF8.toList ∧ withSub.Ready 11 21 12 "a".toUTF8.toList ∧ withFile.Ready 11 21 13 dot ∧
    withDot.Ready 11 21 14 dotdot ∧ withDots.heap.chainOf 11 = some 21 ∧ (withDots.recorded 21).isSome ∧
    (withDots.heap.ramnode fileNode.nodeAddr).isSome := by
  decide +kernel

theorem withDots_reached : directories.Reaches (ramfsInit 10 20) withDots := by
  obtain ⟨unused, subReady, fileReady, dotReady, dotsReady, _⟩ := withDots_ready
  have room : directories.Reaches (ramfsInit 10 20) withRoom := by
    refine reaches_after (.refl _) fun a stale granted => ?_
    cases granted
    exact unused
  have sub : directories.Reaches (ramfsInit 10 20) withSub := reaches_after room (legal_add subReady)
  have file : directories.Reaches (ramfsInit 10 20) withFile := reaches_after sub (legal_add fileReady)
  have oneDot : directories.Reaches (ramfsInit 10 20) withDot := reaches_after file (legal_add dotReady)
  exact reaches_after oneDot (legal_add dotsReady)

theorem legal_remove_entry {removeNode : FsNode} {target : Ramnode} (chain : r.heap.chainOf parent = some d)
    (live : r.Live d) (found : r.heap.ramnode removeNode.nodeAddr = some target) :
    r.Legal (.remove parent removeNode false) := by
  have none : removedChain target false = none := by simp [removedChain]
  refine ⟨d, target, [], chain, live, found, ?_, by simp⟩
  rw [none]
  exact ⟨⟨rfl, by simp⟩, by simp, fun _ _ _ _ _ => List.disjoint_nil_left _⟩

theorem onlyDotsLeft_reached : directories.Reaches (ramfsInit 10 20) onlyDotsLeft := by
  obtain ⟨_, _, _, _, _, chain, live, present⟩ := withDots_ready
  obtain ⟨target, found⟩ := Option.isSome_iff_exists.mp present
  exact reaches_after withDots_reached (legal_remove_entry chain live found)

theorem onlyDotsLeft_holds : onlyDotsLeft.heap.chainOf subNode.nodeAddr = some 21 ∧ onlyDotsLeft.heap.chainOf 10 = some 20 ∧
    (onlyDotsLeft.recorded 20).isSome ∧ onlyDotsLeft.recorded 21 = some [(dotdot, 14), (dot, 13)] ∧
    (onlyDotsLeft.heap.ramnode subNode.nodeAddr).map Ramnode.flags = some fsNodeTypeDirectory ∧
    ((onlyDotsLeft.heap.listDirectory 11).map fun l => l.map FsNode.name) = some [dot, dotdot] ∧
    (onlyDotsLeft.heap.ramfsRemoveEntry 10 subNode true).map Prod.fst = some .dirNotEmpty := by
  decide +kernel

theorem legal_remove_subNode : onlyDotsLeft.Legal (.remove 10 subNode true) := by
  obtain ⟨nodes, slots, sound⟩ := sound_of_reaches onlyDotsLeft_reached
  obtain ⟨subChain, rootChain, liveRoot, recorded, flags, _⟩ := onlyDotsLeft_holds
  have liveSub : onlyDotsLeft.Live 21 := Option.isSome_of_eq_some recorded
  obtain ⟨target, found, data⟩ := chainOf_eq subChain
  rw [found, Option.map_some, Option.some.injEq] at flags
  have content : removedChain target true = some 21 := by
    rw [removedChain, flags, data]
    decide
  refine ⟨20, target, nodes 21, rootChain, liveRoot, found, ?_, fun _ => ⟨21, data, liveSub⟩⟩
  rw [content]
  exact .of_live sound liveSub (by decide)

/-- `d` lists nothing but `.` and `..`, and removing it with its content reports `ERR_FS_DIR_NOT_EMPTY`. -/
theorem dots_only_directory_refused :
    directories.Reaches (ramfsInit 10 20) onlyDotsLeft ∧ onlyDotsLeft.Legal (.remove 10 subNode true) ∧
    ((onlyDotsLeft.heap.listDirectory 11).map fun l => l.map FsNode.name) = some [dot, dotdot] ∧
    (onlyDotsLeft.heap.ramfsRemoveEntry 10 subNode true).map Prod.fst = some .dirNotEmpty :=
  ⟨onlyDotsLeft_reached, legal_remove_subNode, onlyDotsLeft_holds.2.2.2.2.2⟩

theorem directory_is_ordered_set_dots :
    (∃ l, onlyDotsLeft.OrderedSet 21 [(dotdot, 14), (dot, 13)] l) ∧
    ∃ err h', onlyDotsLeft.heap.ramfsRemoveEntry 10 subNode true = some (err, h') := by
  have law := directory_is_ordered_set 10 20 onlyDotsLeft onlyDotsLeft_reached
  obtain ⟨subChain, _, _, recorded, _⟩ := onlyDotsLeft_holds
  obtain ⟨l, set⟩ := law.1 21 [(dotdot, 14), (dot, 13)] recorded
  obtain ⟨err, h', call, -⟩ := law.2 10 subNode 21 l legal_remove_subNode rfl subChain set.lists
  exact ⟨⟨l, set⟩, err, h', call⟩

end Recorded
end Kerosene.Ramfs
