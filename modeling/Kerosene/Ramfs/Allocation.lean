import Kerosene.Ramfs.WriteShapes

/-!
# What `ramfs_allocate_datanodes` hands out

`clear` reaches every datanode but the last one of a longer chain.
-/

namespace Kerosene.Ramfs
namespace Datanodes

/-! ## Every run ends -/

section
variable {δ : Type*} {s s' : Datanodes δ} {clear : Option δ} {grants : List (Grant δ)} {start new current : Addr}
variable {built : List Addr} {count : Nat} {z : δ} {node : Datanode δ} {given : List (Addr × Datanode δ)}

theorem allocateLoop_total (building : s.Building start built current) (fresh : s.Fresh grants) :
    ∃ result, allocateLoop clear start count s current grants = some result := by
  induction count generalizing s built current grants with
  | zero => exact ⟨_, rfl⟩
  | succ count ih =>
      obtain ⟨node, here⟩ := Option.isSome_iff_exists.mp (building.allocated current (by simp))
      cases answer : grants.head?.join with
      | none =>
          rw [allocateLoop, answer]
          dsimp only
          rw [removeDatanodeChain_chain (building.cut here)]
          exact ⟨_, rfl⟩
      | some grant =>
          obtain ⟨rest, rfl⟩ := exists_cons_of_answer answer
          rw [allocateLoop_some building here fresh.head.1]
          exact ih (building.attach here fresh.head.1) (fresh.attached here)

-- the first datanode, before the loop
theorem Fresh.first {stale : Datanode δ} (fresh : s.Fresh (some (start, stale) :: grants)) (node : Datanode δ) :
    (s.put start node).Building start [] start ∧ (s.put start node).Fresh grants ∧ s.put start node start = some node := by
  have here : s.put start node start = some node := Function.update_self ..
  refine ⟨⟨⟨rfl, rfl⟩, by simp [here], by simp⟩, fresh.tail.congr fun a member => Function.update_of_ne ?_ _ _, here⟩
  rintro rfl
  exact fresh.head.2 member

theorem ramfsAllocateDatanodes_total (fresh : s.Fresh grants) (count : Nat) (clear : Option δ) :
    ∃ result, s.ramfsAllocateDatanodes count clear grants = some result := by
  cases count with
  | zero => exact ⟨_, rfl⟩
  | succ count =>
      rw [ramfsAllocateDatanodes]
      cases answer : grants.head?.join with
      | none => exact ⟨_, rfl⟩
      | some grant =>
          obtain ⟨rest, rfl⟩ := exists_cons_of_answer answer
          obtain ⟨building, fresh', _⟩ := fresh.first _
          dsimp only
          split_ifs with one
          · exact ⟨_, rfl⟩
          · exact allocateLoop_total building fresh'

/-! ## What is cleared -/

theorem allocateLoop_data (building : s.Building start built current) (fresh : s.Fresh grants)
    (data : (s current).map Datanode.data = some node.data) (granted : grants.take given.length = given.map some)
    (done : allocateLoop (some z) start given.length s current grants = some (some new, s')) :
    (∀ b ∈ ((current, node) :: given).dropLast, (s' b.1).map Datanode.data = some z) ∧
      ∀ b ∈ ((current, node) :: given).getLast?, (s' b.1).map Datanode.data = some b.2.data := by
  induction given generalizing s built current node grants with
  | nil =>
      cases done
      refine ⟨fun b member => (nomatch member), fun b last => ?_⟩
      cases last
      exact data
  | cons grant given ih =>
      obtain ⟨old, here⟩ := Option.isSome_iff_exists.mp (building.allocated current (by simp))
      cases grants with
      | nil => simp at granted
      | cons head grants =>
          obtain ⟨block, stale⟩ := grant
          simp only [List.length_cons, List.take_succ_cons, List.map_cons, List.cons.injEq] at granted
          obtain ⟨rfl, granted⟩ := granted
          have unused := fresh.head.1
          have other := building.ne_block unused
          rw [List.length_cons, allocateLoop_some building here unused] at done
          have next : (attached (some z) s current block stale old).Building start (built ++ [current]) block :=
            building.attach here unused
          have fresh' : (attached (some z) s current block stale old).Fresh grants := fresh.attached here
          have new : attached (some z) s current block stale old block = some ⟨none, stale.data⟩ := attached_new other
          have stays : (attached (some z) s current block stale old block).map Datanode.data = some stale.data := by
            rw [new]
            rfl
          obtain ⟨before, last⟩ := ih next fresh' stays granted done
          obtain ⟨_, given', _, _, _, others, news, _⟩ :=
            allocateLoop_spec next (fun _ => by rw [link, new]; rfl) fresh' done
          refine ⟨fun b member => ?_, fun b member => last b (by rwa [List.getLast?_cons_cons] at member)⟩
          rw [List.dropLast_cons_cons, List.mem_cons] at member
          rcases member with rfl | member
          · have kept : s' current = attached (some z) s current block stale old current := by
              refine others current other.symm fun again => ?_
              have none := news current again
              rw [attached_current other here] at none
              cases none
            dsimp only
            rw [kept, attached_current other here]
            rfl
          · exact before b member

theorem ramfsAllocateDatanodes_data (fresh : s.Fresh grants) (granted : grants.take given.length = given.map some)
    (done : s.ramfsAllocateDatanodes given.length (some z) grants = some (some new, s')) :
    (∀ b ∈ given.dropLast, (s' b.1).map Datanode.data = some z) ∧
      ∀ b ∈ given.getLast?, (s' b.1).map Datanode.data = some (if given.length = 1 then z else b.2.data) := by
  cases given with
  | nil => cases done
  | cons grant given =>
      obtain ⟨start, stale⟩ := grant
      cases grants with
      | nil => simp at granted
      | cons head grants =>
          simp only [List.length_cons, List.take_succ_cons, List.map_cons, List.cons.injEq] at granted
          obtain ⟨rfl, granted⟩ := granted
          obtain ⟨building, fresh', here⟩ := fresh.first ⟨stale.next, z⟩
          rw [List.length_cons, ramfsAllocateDatanodes] at done
          simp only [List.head?_cons, Option.join_some, List.tail_cons] at done
          cases given with
          | nil =>
              rw [List.length_nil, if_pos rfl] at done
              cases done
              refine ⟨fun b member => absurd member List.not_mem_nil, fun b last => ?_⟩
              cases last
              have cleared : (s.put new ⟨stale.next, z⟩).setNext new none new = some ⟨none, z⟩ := setNext_self here none
              exact congrArg (Option.map Datanode.data) cleared
          | cons second given =>
              rw [List.length_cons, if_neg (Nat.succ_ne_zero _), ← List.length_cons (a := second)] at done
              have data : (s.put start ⟨stale.next, z⟩ start).map Datanode.data = some (Datanode.mk stale.next z).data := by
                rw [here]
                rfl
              obtain ⟨before, last⟩ := allocateLoop_data building fresh' data granted done
              refine ⟨fun b member => ?_, fun b ends => ?_⟩
              · rw [List.dropLast_cons_cons] at member before
                rw [List.mem_cons] at member
                rcases member with rfl | member
                · exact before (start, ⟨stale.next, z⟩) List.mem_cons_self
                · exact before b (List.mem_cons_of_mem _ member)
              · rw [List.getLast?_cons_cons] at ends last
                rw [if_neg (by simp)]
                exact last b ends

end

/-! ## The chain handed out -/

-- `memset(data, 0, RAMFS_DATANODE_SIZE)`
def zeroBlock : Block := Vector.replicate 512 0

def clearing (clear : Bool) : Option Block := if clear then some zeroBlock else none

structure HandedOut (s s' : Datanodes Block) (count : Nat) (clear : Bool) (new : Addr) (l : List Addr) : Prop where
  chain : s'.Chain (some new) l
  length : l.length = count
  distinct : l.Nodup
  news : ∀ a ∈ l, s a = none
  others : ∀ a, a ∉ l → s' a = s a
  zero : clear = true → ∀ a ∈ l, (s' a).map Datanode.data = some zeroBlock

/-- NULL with no block kept, or a chain of new datanodes, all of them cleared if asked for. -/
def AllocatesOrFrees (s : Datanodes Block) (count : Nat) (clear : Bool) (grants : List (Grant Block)) : Prop :=
  s.ramfsAllocateDatanodes count (clearing clear) grants = some (none, s) ∨
    ∃ new s' l, s.ramfsAllocateDatanodes count (clearing clear) grants = some (some new, s') ∧ HandedOut s s' count clear new l

variable {s s' : Datanodes Block} {count : Nat} {clear : Bool} {grants : List (Grant Block)} {new : Addr}
variable {given : List (Addr × Datanode Block)}

theorem handedOut_of_last (fresh : s.Fresh grants)
    (done : s.ramfsAllocateDatanodes count (clearing clear) grants = some (some new, s'))
    (length : given.length = count) (granted : grants.take count = given.map some)
    (last : clear = true → 1 < count → ∀ block ∈ given.getLast?, block.2.data = zeroBlock) :
    ∃ l, HandedOut s s' count clear new l := by
  obtain ⟨given', length', chain, allocated⟩ := ramfsAllocateDatanodes_spec fresh done
  have same : given' = given := by
    have granted' := allocated.granted
    rw [length', granted] at granted'
    exact (List.map_injective_iff.mpr (Option.some_injective _) granted').symm
  subst same
  refine ⟨given'.map Prod.fst, chain, by rw [List.length_map, length], chain.nodup, allocated.news, allocated.others,
    fun isClear a member => ?_⟩
  subst length isClear
  obtain ⟨before, ends⟩ := ramfsAllocateDatanodes_data fresh granted done
  obtain ⟨b, inside, rfl⟩ := List.mem_map.mp member
  rcases List.eq_nil_or_concat given' with rfl | ⟨front, final, rfl⟩
  · cases inside
  · rw [List.concat_eq_append] at *
    rw [List.dropLast_concat] at before
    rw [List.getLast?_concat] at ends last
    rcases List.mem_append.mp inside with earlier | here
    · exact before b earlier
    · obtain rfl := List.mem_singleton.mp here
      rw [ends b rfl]
      split_ifs with one
      · rfl
      · exact congrArg some (last rfl (by rw [List.length_append, List.length_singleton] at *; omega) b rfl)

-- the last datanode keeps what its block held
theorem AllocatesOrFrees.last (holds : AllocatesOrFrees s count true grants) (fresh : s.Fresh grants) (more : 1 < count)
    (length : given.length = count) (granted : grants.take count = given.map some) {block : Addr × Datanode Block}
    (ends : block ∈ given.getLast?) : block.2.data = zeroBlock := by
  subst length
  have nonempty : given ≠ [] := by
    rintro rfl
    cases ends
  obtain ⟨new, s', done⟩ := ramfsAllocateDatanodes_succeeds (c := some zeroBlock) fresh granted nonempty
  rcases holds with freed | ⟨new', s'', l, done', handed⟩
  · rw [clearing, if_pos rfl, done] at freed
    cases freed
  · rw [clearing, if_pos rfl, done] at done'
    cases done'
    obtain ⟨given', length', chain, allocated⟩ := ramfsAllocateDatanodes_spec fresh done
    have granted' := allocated.granted
    rw [length', granted] at granted'
    have same : given = given' := List.map_injective_iff.mpr (Option.some_injective _) granted'
    have listed : l = given.map Prod.fst := by
      rw [same]
      exact handed.chain.links.unique chain.links
    have inside : block.1 ∈ l := by
      rw [listed]
      exact List.mem_map_of_mem (List.mem_of_getLast? ends)
    have data := (ramfsAllocateDatanodes_data fresh granted done).2 block ends
    rw [handed.zero rfl block.1 inside, if_neg (by omega)] at data
    exact (Option.some.inj data).symm

/-- Exactly where `clear` finds no more than one datanode to clear, or nothing to clear in the last one. -/
theorem ramfsAllocateDatanodes_iff (fresh : s.Fresh grants) :
    AllocatesOrFrees s count clear grants ↔
      (clear = true → 1 < count → ∀ given : List (Addr × Datanode Block), given.length = count →
        grants.take count = given.map some → ∀ block ∈ given.getLast?, block.2.data = zeroBlock) := by
  constructor
  · rintro holds rfl more given length granted block ends
    exact holds.last fresh more length granted ends
  · intro zero
    obtain ⟨⟨answer, s'⟩, done⟩ := ramfsAllocateDatanodes_total fresh count (clearing clear)
    cases answer with
    | none =>
        obtain rfl := ramfsAllocateDatanodes_fails fresh done
        exact .inl done
    | some new =>
        obtain ⟨given, length, _, allocated⟩ := ramfsAllocateDatanodes_spec fresh done
        have granted := allocated.granted
        rw [length] at granted
        obtain ⟨l, handed⟩ := handedOut_of_last fresh done length granted fun isClear more =>
          zero isClear more given length granted
        exact .inr ⟨new, s', l, done, handed⟩

-- two blocks full of ones
def dirtyGrants : List (Grant Block) := [some (0, ⟨none, Vector.replicate 512 1⟩), some (1, ⟨none, Vector.replicate 512 1⟩)]

theorem dirtyGrants_fresh : Fresh (fun _ => none) dirtyGrants := ⟨fun _ _ => rfl, by decide⟩

theorem dirty_ne_zeroBlock : (Vector.replicate 512 1 : Block) ≠ zeroBlock := by
  intro same
  have first := congrArg (fun block : Block => block[0]) same
  simp [zeroBlock] at first

theorem ramfsAllocateDatanodes_last_dirty : ¬AllocatesOrFrees (fun _ => none) 2 true dirtyGrants := by
  intro holds
  have granted : dirtyGrants.take 2 =
      [(0, ⟨none, Vector.replicate 512 1⟩), (1, (⟨none, Vector.replicate 512 1⟩ : Datanode Block))].map some := rfl
  exact dirty_ne_zeroBlock (holds.last dirtyGrants_fresh (by decide) rfl granted rfl)

-- a third block, which is zero already
def cleanLastGrants : List (Grant Block) := dirtyGrants ++ [some (2, ⟨none, zeroBlock⟩)]

theorem ramfsAllocateDatanodes_last_clean : AllocatesOrFrees (fun _ => none) 3 true cleanLastGrants := by
  refine (ramfsAllocateDatanodes_iff ⟨fun _ _ => rfl, by decide⟩).mpr fun _ _ given length granted block ends => ?_
  have last := congrArg List.getLast? granted
  rw [List.getLast?_map, ends] at last
  cases last
  rfl

end Datanodes
end Kerosene.Ramfs
