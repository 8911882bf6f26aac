import Kerosene.Vfs.Accounts
import Kerosene.Vfs.Open

/-!
# What lookup and cleanup leave alone

None of this needs a well-formed tree, so that it holds of a lookup that fails too, and behind one
that left stale links.
-/

namespace Kerosene.Vfs
open Lib Ramfs
variable {σ φ ε π : Type}

namespace Tree
variable {s₀ s s' : Tree φ ε} {a b p : Addr} {node : Node φ ε}

/-- The nodes of `s₀` are there in `s`, as they were but for their lists. -/
structure Spares (s₀ s : Tree φ ε) : Prop where
  payload : ∀ a, (s₀.node a).isSome → s.payload a = s₀.payload a
  semaphore : s.semaphore = s₀.semaphore

theorem unlink_keeps (done : s.unlink a = some s') :
    (∀ b, s'.payload b = s.payload b) ∧ s'.semaphore = s.semaphore := by
  simp only [unlink, Option.bind_eq_bind, Option.bind_eq_some_iff] at done
  obtain ⟨node, here, done⟩ := done
  cases up : node.parent with
  | none =>
      rw [up] at done
      cases done
      exact ⟨fun b => rfl, rfl⟩
  | some p =>
      simp only [up, Option.bind_eq_some_iff] at done
      obtain ⟨parent, -, done⟩ := done
      split_ifs at done with isFirst
      · cases done
        exact ⟨fun b => s.setChildren_payload .., rfl⟩
      · obtain ⟨before, -, done⟩ := Option.bind_eq_some_iff.mp done
        cases before with
        | none =>
            cases done
            exact ⟨fun b => rfl, rfl⟩
        | some before =>
            cases done
            exact ⟨fun b => s.setNextSibling_payload .., rfl⟩

namespace Spares

theorem refl (s : Tree φ ε) : Spares s s := ⟨fun _ _ => rfl, rfl⟩

theorem lists {t : Tree φ ε} (spares : Spares s₀ s) (same : (∀ b, t.payload b = s.payload b) ∧ t.semaphore = s.semaphore) :
    Spares s₀ t :=
  ⟨fun b allocated => (same.1 b).trans (spares.payload b allocated), same.2.trans spares.semaphore⟩

theorem put (spares : Spares s₀ s) (new : s₀.node a = none) (node : Node φ ε) : Spares s₀ (s.put a node) := by
  refine ⟨fun b allocated => ?_, spares.semaphore⟩
  have other : b ≠ a := by
    rintro rfl
    rw [new] at allocated
    cases allocated
  rw [payload_congr (put_of_ne other ..), spares.payload b allocated]

theorem kfree (spares : Spares s₀ s) (new : s₀.node a = none) : Spares s₀ (s.kfree a) := by
  refine ⟨fun b allocated => ?_, spares.semaphore⟩
  have other : b ≠ a := by
    rintro rfl
    rw [new] at allocated
    cases allocated
  rw [payload_congr (kfree_of_ne other ..), spares.payload b allocated]

theorem referenced (spares : Spares s₀ s) (here : s₀.node a = some node) :
    ∃ node', s.node a = some node' ∧ node'.refcount = node.refcount := by
  have same := spares.payload a (by rw [here]; rfl)
  obtain ⟨node', found, shape⟩ := node_of_payload same.symm here
  exact ⟨node', found, by rw [shape]⟩

end Spares
end Tree

/-! ## Lookup -/

def Walk.stack : Walk φ ε → List Addr
  | .arrived _ _ stack | .create _ _ _ stack _ | .nuke _ _ stack => stack
  | .leave _ _ => []

section
variable {V : Volumes φ} {S : Store σ φ ε} {disk : σ} {mode : FileMode} {s₀ s : Tree φ ε} {p current cwd : Addr}
variable {name path : Name} {stack : List Addr} {grants : List (Grant φ ε)} {walk : Walk φ ε} {isLast : Bool} {fuel : Nat}

theorem load_effect (done : load V S disk mode s p name isLast stack grants = some walk) :
    (walk.tree = s ∧ walk.stack ⊆ stack ∧ walk.grants = []) ∨
      ∃ new stale rest node, grants = some (new, stale) :: rest ∧ walk.stack = stack ++ [new] ∧
        blocksOf walk.grants ⊆ blocksOf rest ∧
        (walk.tree = s.put new node ∨ (s.put new node).appendChild p new = some walk.tree) := by
  rw [load] at done
  by_cases deep : stack.length ≥ maxAllocation
  · rw [if_pos deep] at done
    cases done
    exact .inl ⟨rfl, List.nil_subset _, rfl⟩
  rw [if_neg deep] at done
  cases answer : grants.head?.join with
  | none =>
      rw [answer] at done
      cases done
      exact .inl ⟨rfl, List.Subset.refl _, rfl⟩
  | some found =>
      obtain ⟨new, stale⟩ := found
      obtain ⟨rest, rfl⟩ := exists_cons_of_head answer
      simp only [answer, Option.bind_eq_bind, Option.bind_eq_some_iff, List.tail_cons] at done
      obtain ⟨parentNode, -, done⟩ := done
      rcases found : nodeFind V S disk p parentNode name { stale with parent := none } with ⟨err, node⟩
      refine .inr ⟨new, stale, rest, node, rfl, ?_⟩
      simp only [found] at done
      split_ifs at done
      · cases done
        exact ⟨rfl, List.Subset.refl _, .inl rfl⟩
      iterate 3
        · cases done
          exact ⟨rfl, List.nil_subset _, .inl rfl⟩
      · obtain ⟨s', appended, done⟩ := Option.bind_eq_some_iff.mp done
        cases done
        exact ⟨rfl, List.nil_subset _, .inr appended⟩

theorem load_spares (spares : s₀.Spares s) (stacked : ∀ a ∈ stack, s₀.node a = none)
    (fresh : ∀ a ∈ blocksOf grants, s₀.node a = none) (done : load V S disk mode s p name isLast stack grants = some walk) :
    s₀.Spares walk.tree ∧ (∀ a ∈ walk.stack, s₀.node a = none) ∧ ∀ a ∈ blocksOf walk.grants, s₀.node a = none := by
  obtain ⟨same, sub, none⟩ | ⟨new, stale, rest, node, rfl, pushed, left, tree⟩ := load_effect done
  · rw [same, none]
    exact ⟨spares, fun a member => stacked a (sub member), fun a member => by cases member⟩
  · have new : s₀.node new = none := fresh new List.mem_cons_self
    refine ⟨?_, fun a member => ?_, fun a member => fresh a (List.mem_cons_of_mem _ (left member))⟩
    · rcases tree with same | appended
      · rw [same]
        exact spares.put new node
      · exact (spares.put new node).lists (appendChild_keeps appended)
    · rw [pushed, List.mem_append, List.mem_singleton] at member
      rcases member with old | rfl
      · exact stacked a old
      · exact new

theorem walkLoop_spares (spares : s₀.Spares s) (stacked : ∀ a ∈ stack, s₀.node a = none)
    (fresh : ∀ a ∈ blocksOf grants, s₀.node a = none)
    (done : walkLoop V S disk mode fuel s current stack path grants = some walk) :
    s₀.Spares walk.tree ∧ (∀ a ∈ walk.stack, s₀.node a = none) ∧ ∀ a ∈ blocksOf walk.grants, s₀.node a = none := by
  induction fuel generalizing s current stack path grants with
  | zero => cases done
  | succ fuel ih =>
      rcases walkLoop_cases done with rfl | ⟨name, rest, -, ⟨node, a, b, -, -, -, done⟩ |
        ⟨s', stack', new, b, load, -, done⟩ | load⟩
      · exact ⟨spares, stacked, fun a member => by cases member⟩
      · exact ih spares stacked fresh done
      · obtain ⟨spares', stacked', -⟩ := load_spares spares stacked fresh load
        refine ih spares' stacked' (fun a member => fresh a ?_) done
        cases grants with
        | nil => cases member
        | cons grant grants =>
            cases grant with
            | none => exact member
            | some => exact List.mem_cons_of_mem _ member
      · exact load_spares spares stacked fresh load

theorem walkPath_spares (spares : s₀.Spares s) (fresh : ∀ a ∈ blocksOf grants, s₀.node a = none)
    (done : walkPath V S disk mode s path cwd grants = some walk) :
    s₀.Spares walk.tree ∧ (∀ a ∈ walk.stack, s₀.node a = none) ∧ ∀ a ∈ blocksOf walk.grants, s₀.node a = none := by
  rw [walkPath] at done
  split_ifs at done
  · exact walkLoop_spares spares (fun a member => by cases member) fresh done
  · exact walkLoop_spares spares (fun a member => by cases member) fresh done

theorem nukeSearchStack_spares {s' : Tree φ ε} (spares : s₀.Spares s) (stacked : ∀ a ∈ stack, s₀.node a = none)
    (done : nukeSearchStack s stack = some s') : s₀.Spares s' := by
  have frees : ∀ (l : List Addr) (s : Tree φ ε), (∀ a ∈ l, s₀.node a = none) → s₀.Spares s →
      s₀.Spares (l.foldl Tree.kfree s) := by
    intro l
    induction l with
    | nil => exact fun s _ spares => spares
    | cons a l ih =>
        intro s new spares
        exact ih _ (fun b member => new b (List.mem_cons_of_mem a member)) (spares.kfree (new a List.mem_cons_self))
  cases stack with
  | nil =>
      cases done
      exact spares
  | cons bottom rest =>
      simp only [nukeSearchStack, Option.bind_eq_bind, Option.bind_eq_some_iff] at done
      obtain ⟨s₁, unlinked, done⟩ := done
      cases done
      exact frees _ _ stacked (spares.lists (Tree.unlink_keeps unlinked))

theorem failLookup_spares {err : FsErr} {found : Found σ φ ε} (spares : s₀.Spares s) (stacked : ∀ a ∈ stack, s₀.node a = none)
    (done : failLookup disk s err stack = some found) : s₀.Spares found.tree := by
  obtain ⟨s', nuked, done⟩ := Option.bind_eq_some_iff.mp done
  cases done
  exact nukeSearchStack_spares spares stacked nuked

theorem finishLookup_spares {found : Found σ φ ε} (spares : s₀.Spares s) (stacked : ∀ a ∈ stack, s₀.node a = none)
    (done : finishLookup disk mode s current stack = some found) : s₀.Spares found.tree := by
  simp only [finishLookup, Option.bind_eq_bind, Option.bind_eq_some_iff] at done
  obtain ⟨node, -, done⟩ := done
  split_ifs at done
  · exact failLookup_spares spares stacked done
  · cases done
    exact spares

variable [DecidableEq φ]

theorem vfsFindAndCreateNode_spares {createFlags : BitVec 32} {kmalloc : Kmalloc φ ε} {found : Found σ φ ε}
    (fresh : ∀ a ∈ blocksOf kmalloc.nodes, s.node a = none)
    (done : vfsFindAndCreateNode V S disk s path cwd mode createFlags kmalloc = some found) : s.Spares found.tree := by
  rw [vfsFindAndCreateNode] at done
  split_ifs at done with refused
  · cases done
    exact .refl s
  obtain ⟨walk, walked, done⟩ := Option.bind_eq_some_iff.mp done
  obtain ⟨spares, stacked, granted⟩ := walkPath_spares (.refl s) fresh walked
  cases walk with
  | arrived s' current stack => exact finishLookup_spares spares stacked done
  | nuke s' err stack => exact failLookup_spares spares stacked done
  | leave s' err =>
      cases done
      exact spares
  | create s' parent name stack grants =>
      simp only [createLookup] at done
      cases answer : grants.head?.join with
      | none =>
          rw [answer] at done
          exact failLookup_spares spares stacked done
      | some grant =>
          obtain ⟨new, stale⟩ := grant
          obtain ⟨rest, rfl⟩ := exists_cons_of_head answer
          simp only [answer, Option.bind_eq_bind, Option.bind_eq_some_iff] at done
          obtain ⟨parentNode, -, done⟩ := done
          rcases created : createEntry V S disk parentNode name createFlags with ⟨made, disk'⟩
          rw [created] at done
          cases made with
          | error err => exact failLookup_spares spares stacked done
          | ok entry =>
              obtain ⟨s₁, appended, done⟩ := Option.bind_eq_some_iff.mp done
              have put := spares.put (granted new List.mem_cons_self) (stale.fill parent parentNode entry)
              have linked := (put.lists (appendChild_keeps appended)).lists (t := s₁.setNextSibling new none)
                ⟨fun b => Tree.setNextSibling_payload .., rfl⟩
              exact finishLookup_spares linked stacked done

end

/-! ## Cleanup -/

namespace Tree
variable {s s' : Tree φ ε} {a b : Addr} {node : Node φ ε}

theorem kfreeSemaphore_node (s : Tree φ ε) (node : Node φ ε) : (s.kfreeSemaphore node).node = s.node := by
  rw [kfreeSemaphore]
  cases node.semaphore with
  | none => rfl
  | some sem =>
      dsimp only
      split_ifs <;> rfl

theorem unlinkAndFreeNode_effect (done : s.unlinkAndFreeNode a = some s') :
    s'.node a = none ∧ ∀ b, b ≠ a → s'.payload b = s.payload b := by
  simp only [unlinkAndFreeNode, Option.bind_eq_bind, Option.bind_eq_some_iff] at done
  obtain ⟨node, -, s₁, unlinked, done⟩ := done
  cases done
  refine ⟨kfree_self .., fun b other => ?_⟩
  rw [payload_congr (kfree_of_ne other ..), payload_congr (congrFun (kfreeSemaphore_node ..) b),
    (unlink_keeps unlinked).1 b]

theorem node_none_congr (same : s'.payload b = s.payload b) (free : s.node b = none) : s'.node b = none := by
  rw [← Option.not_isSome_iff_eq_none, isSome_congr same, free]
  simp

theorem cleanupLoop_free {fuel : Nat} (done : cleanupLoop fuel s a = some s') (free : s.node b = none) : s'.node b = none := by
  induction fuel generalizing s a with
  | zero => cases done
  | succ fuel ih =>
      simp only [cleanupLoop, Option.bind_eq_bind, Option.bind_eq_some_iff] at done
      obtain ⟨target, -, done⟩ := done
      have gone : ∀ s₁, s.unlinkAndFreeNode a = some s₁ → s₁.node b = none := by
        intro s₁ freed
        by_cases self : b = a
        · rw [self]
          exact (unlinkAndFreeNode_effect freed).1
        · exact node_none_congr ((unlinkAndFreeNode_effect freed).2 b self) free
      split_ifs at done with stays
      · cases done
        exact free
      cases up : target.parent with
      | none =>
          rw [up] at done
          exact gone s' done
      | some p =>
          simp only [up, Option.bind_eq_some_iff] at done
          obtain ⟨parent, -, s₁, freed, done⟩ := done
          split_ifs at done
          · exact ih done (gone s₁ freed)
          · cases done
            exact gone s' freed

theorem vfsCleanupNodeTree_frees (done : s.vfsCleanupNodeTree a = some s') (here : s.node a = some node)
    (unreferenced : node.refcount ≤ 0) (leaf : node.children = none) : s'.node a = none := by
  obtain ⟨fuel, more⟩ : ∃ fuel, siblingFuel = fuel + 1 := ⟨siblingFuel - 1, rfl⟩
  have goes : ¬ (node.refcount > 0 ∨ node.children ≠ none) := by
    rw [not_or, not_not]
    exact ⟨by omega, leaf⟩
  simp only [vfsCleanupNodeTree, more, cleanupLoop, here, Option.bind_eq_bind, Option.bind_some] at done
  rw [if_neg goes] at done
  cases up : node.parent with
  | none =>
      rw [up] at done
      exact (unlinkAndFreeNode_effect done).1
  | some p =>
      simp only [up, Option.bind_eq_some_iff] at done
      obtain ⟨parent, -, s₁, freed, done⟩ := done
      have gone := (unlinkAndFreeNode_effect freed).1
      split_ifs at done
      · exact cleanupLoop_free done gone
      · cases done
        exact gone

theorem cleanupLoop_spares {fuel : Nat} (done : cleanupLoop fuel s a = some s') (here : s.node b = some node)
    (referenced : 0 < node.refcount) : s'.payload b = s.payload b := by
  induction fuel generalizing s a node with
  | zero => cases done
  | succ fuel ih =>
      simp only [cleanupLoop, Option.bind_eq_bind, Option.bind_eq_some_iff] at done
      obtain ⟨target, hereA, done⟩ := done
      by_cases stays : target.refcount > 0 ∨ target.children ≠ none
      · rw [if_pos stays] at done
        cases done
        rfl
      rw [if_neg stays] at done
      have other : b ≠ a := by
        rintro rfl
        rw [here] at hereA
        cases hereA
        exact stays (.inl referenced)
      cases up : target.parent with
      | none =>
          rw [up] at done
          exact (unlinkAndFreeNode_effect done).2 b other
      | some p =>
          simp only [up, Option.bind_eq_some_iff] at done
          obtain ⟨parent, -, s₁, freed, done⟩ := done
          have kept := (unlinkAndFreeNode_effect freed).2 b other
          split_ifs at done
          · obtain ⟨node', found, shape⟩ := node_of_payload kept.symm here
            rw [ih done found (by rw [shape] at referenced; exact referenced), kept]
          · cases done
            exact kept

end Tree
end Kerosene.Vfs
