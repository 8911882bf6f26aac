import Kerosene.Vfs.Accounts

/-!
# A search that fails leaves the tree as it was

The nodes that a search loads hang below one another, when no `..` leads it out of them, and the first of
them below a node that was in the tree before. To unlink that one and to free them all undoes the search.
-/

namespace Kerosene.Vfs
open Lib Ramfs
variable {φ ε : Type}

namespace Tree
variable {s₀ s s' : Tree φ ε} {a b p new : Addr} {node : Node φ ε} {l stack : List Addr}

theorem ext_of_node (nodes : ∀ a, s.node a = s'.node a) (semaphores : s.semaphore = s'.semaphore) : s = s' := by
  cases s
  cases s'
  congr
  exact funext nodes

/-- The tree with `a` behind the children `l` of `p`. -/
def attach (s : Tree φ ε) (p : Addr) (l : List Addr) (a : Addr) : Tree φ ε :=
  match l.getLast? with
  | none => s.setChildren p (some a)
  | some last => s.setNextSibling last (some a)

/-- A list of children, with their parent, in the heap. -/
structure Lists (s : Tree φ ε) (p : Addr) (l : List Addr) : Prop where
  list : Seg s.next (s.first p) l none
  allocated : ∀ b ∈ p :: l, (s.node b).isSome

theorem Lists.notFree (lists : s.Lists p l) (free : s.node a = none) : a ≠ p ∧ a ∉ l := by
  have other : a ∉ p :: l := by
    intro member
    have := lists.allocated a member
    rw [free] at this
    cases this
  rw [List.mem_cons, not_or] at other
  exact other

theorem Lists.put (lists : s.Lists p l) (free : s.node new = none) (node : Node φ ε) : (s.put new node).Lists p l := by
  obtain ⟨notP, outside⟩ := lists.notFree free
  have same : ∀ b ∈ p :: l, (s.put new node).node b = s.node b := by
    intro b member
    refine put_of_ne ?_ ..
    rintro rfl
    rcases List.mem_cons.mp member with isP | inside
    · exact notP isP
    · exact outside inside
  refine ⟨?_, fun b member => by rw [same b member]; exact lists.allocated b member⟩
  rw [first, same p List.mem_cons_self]
  exact lists.list.congr fun b member => by rw [next, same b (List.mem_cons_of_mem p member), next]

theorem appendChild_eq (lists : s.Lists p l) : s.appendChild p a = some (s.attach p l a) := by
  obtain ⟨parent, here⟩ := Option.isSome_iff_exists.mp (lists.allocated p List.mem_cons_self)
  have allocated : ∀ b ∈ l, (s.node b).isSome := fun b member => lists.allocated b (List.mem_cons_of_mem p member)
  have last := siblingWhere_seg (p := fun sibling => sibling.nextSibling.isNone) lists.list allocated
  rw [find_last lists.list allocated, first_eq here] at last
  simp only [appendChild, here, last, attach, Option.bind_eq_bind, Option.bind_some]
  cases l.getLast? <;> rfl

theorem attach_of_ne (notP : b ≠ p) (outside : b ∉ l) (s : Tree φ ε) (a : Addr) : (s.attach p l a).node b = s.node b := by
  rw [attach]
  cases last : l.getLast? with
  | none => exact modify_of_ne notP ..
  | some c =>
      refine modify_of_ne ?_ ..
      rintro rfl
      exact outside (List.mem_of_getLast? last)

theorem attach_put (other : b ≠ new) (s : Tree φ ε) (p : Addr) (l : List Addr) (node : Node φ ε) :
    ((s.put new node).attach p l new).node b = (s.attach p l new).node b := by
  rw [attach, attach]
  cases last : l.getLast? with
  | none =>
      simp only [setChildren, modify]
      by_cases isP : b = p
      · subst isP
        rw [Function.update_self, Function.update_self, put_of_ne other]
      · rw [Function.update_of_ne isP, Function.update_of_ne isP, put_of_ne other]
  | some c =>
      simp only [setNextSibling, modify]
      by_cases isC : b = c
      · subst isC
        rw [Function.update_self, Function.update_self, put_of_ne other]
      · rw [Function.update_of_ne isC, Function.update_of_ne isC, put_of_ne other]

/-- What is on `stack` was free before, and hangs with its first node behind the children of a node of
`s₀`. -/
structure Branch (s₀ s : Tree φ ε) (stack : List Addr) : Prop where
  fresh : ∀ a ∈ stack, s₀.node a = none
  semaphore : s.semaphore = s₀.semaphore
  base : ∃ bottom p l node, stack.head? = some bottom ∧ s₀.Lists p l ∧ s.node bottom = some node ∧ node.parent = some p ∧
    node.nextSibling = none ∧ ∀ a, a ∉ stack → s.node a = (s₀.attach p l bottom).node a

namespace Branch

theorem start (lists : s₀.Lists p l) (free : s₀.node new = none) (up : node.parent = some p) (alone : node.nextSibling = none) :
    Branch s₀ ((s₀.put new node).attach p l new) [new] := by
  obtain ⟨notP, outside⟩ := lists.notFree free
  refine ⟨fun a member => by rw [List.mem_singleton.mp member]; exact free, ?_,
    new, p, l, node, rfl, lists, (attach_of_ne notP outside ..).trans (put_self ..), up, alone, fun a other => ?_⟩
  · rw [attach]
    cases l.getLast? <;> rfl
  · exact attach_put (by simpa using other) ..

theorem push (branch : Branch s₀ s stack) (free : s₀.node new = none) (notTwice : new ∉ stack) (node : Node φ ε) :
    Branch s₀ (s.put new node) (stack ++ [new]) := by
  obtain ⟨bottom, p, l, lowest, head, lists, here, up, alone, rest⟩ := branch.base
  have other : bottom ≠ new := by
    rintro rfl
    exact notTwice (List.mem_of_mem_head? head)
  refine ⟨fun a member => ?_, branch.semaphore, bottom, p, l, lowest, ?_, lists, (put_of_ne other ..).trans here, up, alone,
    fun a outside => ?_⟩
  · rcases List.mem_append.mp member with old | isNew
    · exact branch.fresh a old
    · rw [List.mem_singleton.mp isNew]
      exact free
  · rw [List.head?_append, head]
    rfl
  · rw [List.mem_append, not_or, List.mem_singleton] at outside
    rw [put_of_ne outside.2, rest a outside.1]

-- behind the children of a node on the stack
theorem link (branch : Branch s₀ s stack) (member : b ∈ stack) (children : l ⊆ stack)
    (notFirst : ∀ bottom, stack.head? = some bottom → bottom ∉ l) : Branch s₀ (s.attach b l new) stack := by
  obtain ⟨bottom, p, l₀, lowest, head, lists, here, up, alone, rest⟩ := branch.base
  have off : ∀ a, a ∉ stack → (s.attach b l new).node a = s.node a := by
    intro a outside
    refine attach_of_ne ?_ (fun listed => outside (children listed)) ..
    rintro rfl
    exact outside member
  have semaphores : (s.attach b l new).semaphore = s.semaphore := by
    rw [attach]
    cases l.getLast? <;> rfl
  have kept : ∃ lowest', (s.attach b l new).node bottom = some lowest' ∧ lowest'.parent = some p ∧ lowest'.nextSibling = none := by
    rw [attach]
    cases last : l.getLast? with
    | none =>
        by_cases isBottom : bottom = b
        · subst isBottom
          exact ⟨_, modify_self here _, up, alone⟩
        · exact ⟨lowest, (modify_of_ne isBottom ..).trans here, up, alone⟩
    | some c =>
        have other : bottom ≠ c := by
          rintro rfl
          exact notFirst bottom head (List.mem_of_getLast? last)
        exact ⟨lowest, (modify_of_ne other ..).trans here, up, alone⟩
  obtain ⟨lowest', here', up', alone'⟩ := kept
  exact ⟨branch.fresh, semaphores.trans branch.semaphore, bottom, p, l₀, lowest', head, lists, here', up', alone',
    fun a outside => (off a outside).trans (rest a outside)⟩

end Branch

theorem foldl_kfree (l : List Addr) (s : Tree φ ε) :
    (l.foldl kfree s).semaphore = s.semaphore ∧ ∀ a, (l.foldl kfree s).node a = if a ∈ l then none else s.node a := by
  induction l generalizing s with
  | nil => exact ⟨rfl, fun a => by simp⟩
  | cons b l ih =>
      obtain ⟨semaphores, nodes⟩ := ih (s.kfree b)
      refine ⟨semaphores, fun a => ?_⟩
      rw [List.foldl_cons, nodes a]
      by_cases inside : a ∈ l
      · rw [if_pos inside, if_pos (List.mem_cons_of_mem b inside)]
      · rw [if_neg inside]
        by_cases isB : a = b
        · subst isB
          rw [if_pos List.mem_cons_self, kfree_self]
        · rw [kfree_of_ne isB, if_neg (by simp [isB, inside])]

theorem setChildren_attach_nil (lists : s.Lists p []) (a : Addr) : ((s.attach p [] a).setChildren p none).node = s.node := by
  obtain ⟨parent, here⟩ := Option.isSome_iff_exists.mp (lists.allocated p List.mem_cons_self)
  have ends : s.first p = none := lists.list
  rw [first_eq here] at ends
  funext b
  by_cases isP : b = p
  · subst isP
    have : ((s.attach b [] a).setChildren b none).node b = some { parent with children := none } := by
      simp [attach, setChildren, modify, here]
    rw [this, here, ← ends]
  · rw [setChildren, modify_of_ne isP]
    exact attach_of_ne isP List.not_mem_nil ..

theorem setNextSibling_attach_concat {last : Addr} {init : List Addr} (lists : s.Lists p (init ++ [last])) (a : Addr) :
    ((s.attach p (init ++ [last]) a).setNextSibling last none).node = s.node := by
  obtain ⟨lastNode, here⟩ := Option.isSome_iff_exists.mp (lists.allocated last (by simp))
  have ends : s.next last = none := lists.list.split.2
  rw [next_eq here] at ends
  funext b
  by_cases isLast : b = last
  · subst isLast
    have : ((s.attach p (init ++ [b]) a).setNextSibling b none).node b = some { lastNode with nextSibling := none } := by
      simp [attach, setNextSibling, modify, here]
    rw [this, here, ← ends]
  · rw [setNextSibling, modify_of_ne isLast, attach, List.getLast?_concat]
    exact modify_of_ne isLast ..

theorem modify_congr (same : s.node b = s'.node b) (f : Node φ ε → Node φ ε) :
    (s.modify a f).node b = (s'.modify a f).node b := by
  by_cases isA : b = a
  · subst isA
    simp only [modify, Function.update_self, same]
  · rw [modify_of_ne isA, modify_of_ne isA, same]

theorem foldl_kfree_eq (fresh : ∀ a ∈ stack, s₀.node a = none) (semaphores : s.semaphore = s₀.semaphore)
    (off : ∀ a, a ∉ stack → s.node a = s₀.node a) : stack.foldl kfree s = s₀ := by
  obtain ⟨sems, nodes⟩ := foldl_kfree stack s
  refine ext_of_node (fun a => ?_) (sems.trans semaphores)
  rw [nodes a]
  split_ifs with member
  · exact (fresh a member).symm
  · exact off a member

namespace Branch

section
variable {bottom : Addr} {above : List Addr} {lowest : Node φ ε} (fresh : ∀ a ∈ bottom :: above, s₀.node a = none)
  (semaphores : s.semaphore = s₀.semaphore) (here : s.node bottom = some lowest) (up : lowest.parent = some p)
  (alone : lowest.nextSibling = none)
include fresh semaphores here up alone

theorem undo_only (lists : s₀.Lists p []) (rest : ∀ a, a ∉ bottom :: above → s.node a = (s₀.attach p [] bottom).node a) :
    nukeSearchStack s (bottom :: above) = some s₀ := by
  obtain ⟨parent₀, hereP⟩ := Option.isSome_iff_exists.mp (lists.allocated p List.mem_cons_self)
  have off : p ∉ bottom :: above := fun member => by
    rw [fresh p member] at hereP
    cases hereP
  have parent : s.node p = some { parent₀ with children := some bottom } := by
    rw [rest p off, attach]
    exact modify_self hereP _
  have unlinked : s.unlink bottom = some (s.setChildren p none) := by
    simp only [unlink, here, up, parent, alone, Option.bind_eq_bind, Option.bind_some, if_true]
    rfl
  rw [nukeSearchStack, unlinked, Option.bind_eq_bind, Option.bind_some]
  refine congrArg some (foldl_kfree_eq fresh semaphores fun a outside => ?_)
  rw [setChildren, modify_congr (rest a outside)]
  exact congrFun (setChildren_attach_nil lists bottom) a

theorem undo_behind {last : Addr} {init : List Addr} (lists : s₀.Lists p (init ++ [last]))
    (rest : ∀ a, a ∉ bottom :: above → s.node a = (s₀.attach p (init ++ [last]) bottom).node a) :
    nukeSearchStack s (bottom :: above) = some s₀ := by
  obtain ⟨notP, outside⟩ := lists.notFree (fresh bottom List.mem_cons_self)
  have off : ∀ a, (s₀.node a).isSome → a ∉ bottom :: above := fun a allocated member => by
    rw [fresh a member] at allocated
    cases allocated
  have attached : s₀.attach p (init ++ [last]) bottom = s₀.setNextSibling last (some bottom) := by
    rw [attach, List.getLast?_concat]
  rw [attached] at rest
  have listed : ∀ a ∈ init ++ [last], s.node a = (s₀.setNextSibling last (some bottom)).node a := fun a member =>
    rest a (off a (lists.allocated a (List.mem_cons_of_mem p member)))
  obtain ⟨parent₀, hereP⟩ := Option.isSome_iff_exists.mp (lists.allocated p List.mem_cons_self)
  have hereP' := rest p (off p (by rw [hereP]; rfl))
  have first : s.first p = s₀.first p := by rw [Tree.first, hereP', ← Tree.first, first_setNextSibling]
  have ends : s₀.next last = none := lists.list.split.2
  have notLast : ∀ a ∈ init, a ≠ last := by
    rintro a member rfl
    exact (List.nodup_append'.mp lists.list.nodup).2.2 member List.mem_cons_self
  have list : Seg s.next (s.first p) (init ++ last :: bottom :: []) none := by
    rw [first]
    obtain ⟨middle, front, back⟩ := seg_append.mp lists.list
    refine seg_append.mpr ⟨middle, front.congr fun a member => ?_, back.1, ?_, ?_⟩
    · rw [next, listed a (by simp [member]), ← next, next_setNextSibling_of_ne (notLast a member)]
    · rw [next, listed last (by simp), ← next, next_setNextSibling (lists.allocated last (by simp))]
    · exact (next_eq here).trans alone
  have allocated : ∀ b ∈ init ++ last :: bottom :: [], (s.node b).isSome := by
    intro b member
    rw [List.append_cons, List.mem_append, List.mem_singleton] at member
    rcases member with old | rfl
    · rw [listed b old, isSome_congr (s₀.setNextSibling_payload ..)]
      exact lists.allocated b (List.mem_cons_of_mem p old)
    · rw [here]
      rfl
  have found := siblingWhere_seg (p := fun sibling => sibling.nextSibling == some bottom) list allocated
  rw [find_before list allocated] at found
  obtain ⟨parent, hereP''⟩ : ∃ parent, s.node p = some parent :=
    Option.isSome_iff_exists.mp (by rw [hereP', isSome_congr (s₀.setNextSibling_payload ..), hereP]; rfl)
  rw [first_eq hereP''] at found
  have notFirst : parent.children ≠ some bottom := by
    rw [← first_eq hereP'', first]
    intro same
    have := lists.list.head
    rw [same] at this
    exact outside (List.mem_of_mem_head? this.symm)
  have unlinked : s.unlink bottom = some (s.setNextSibling last none) := by
    simp only [unlink, here, up, hereP'', alone, found, Option.bind_eq_bind, Option.bind_some, if_neg notFirst]
    rfl
  rw [nukeSearchStack, unlinked, Option.bind_eq_bind, Option.bind_some]
  refine congrArg some (foldl_kfree_eq fresh semaphores fun a outside => ?_)
  have restored := congrFun (setNextSibling_attach_concat lists bottom) a
  rw [attached] at restored
  rw [setNextSibling, modify_congr (rest a outside)]
  exact restored

end

theorem undo (branch : Branch s₀ s stack) : nukeSearchStack s stack = some s₀ := by
  obtain ⟨bottom, p, l, lowest, head, lists, here, up, alone, rest⟩ := branch.base
  have fresh := branch.fresh
  obtain ⟨above, rfl⟩ : ∃ above, stack = bottom :: above := by
    cases stack with
    | nil => cases head
    | cons a above =>
        cases head
        exact ⟨above, rfl⟩
  cases l using List.reverseRecOn with
  | nil => exact undo_only fresh branch.semaphore here up alone lists rest
  | append_singleton init last => exact undo_behind fresh branch.semaphore here up alone lists rest

end Branch

theorem Lists.next_ne (lists : s.Lists p l) (free : s.node new = none) (member : b ∈ l) : s.next b ≠ some new := by
  obtain ⟨i, bound, rfl⟩ := List.getElem_of_mem member
  rw [lists.list.next_getElem? (List.getElem?_eq_getElem bound)]
  intro same
  exact (lists.notFree free).2 (List.mem_of_getElem? same)

theorem undo_unlinked (free : s₀.node new = none) (up : ∀ p, node.parent = some p → ∃ l, s₀.Lists p l) :
    nukeSearchStack (s₀.put new node) [new] = some s₀ := by
  have unlinked : (s₀.put new node).unlink new = some (s₀.put new node) := by
    simp only [unlink, put_self, Option.bind_eq_bind, Option.bind_some]
    cases parent : node.parent with
    | none => rfl
    | some p =>
        obtain ⟨l, lists⟩ := up p parent
        have lists' := lists.put free node
        obtain ⟨parentNode, hereP⟩ := Option.isSome_iff_exists.mp (lists'.allocated p List.mem_cons_self)
        obtain ⟨notP, outside⟩ := lists.notFree free
        have found := siblingWhere_seg (p := fun sibling => sibling.nextSibling == some new) lists'.list
          fun b member => lists'.allocated b (List.mem_cons_of_mem p member)
        have nobody : (l.find? fun b => ((s₀.put new node).node b).any fun sibling => sibling.nextSibling == some new) = none := by
          refine List.find?_eq_none.mpr fun b member => ?_
          obtain ⟨sibling, hereB⟩ := Option.isSome_iff_exists.mp (lists'.allocated b (List.mem_cons_of_mem p member))
          have other : b ≠ new := by
            rintro rfl
            exact outside member
          have notNew := lists.next_ne free member
          rw [next, ← put_of_ne other s₀ node, ← next, next_eq hereB] at notNew
          rw [hereB, Option.any_some, beq_iff_eq]
          exact notNew
        rw [nobody, first_eq hereP] at found
        have notFirst : parentNode.children ≠ some new := by
          rw [← first_eq hereP]
          intro same
          have := lists'.list.head
          rw [same] at this
          exact outside (List.mem_of_mem_head? this.symm)
        simp only [hereP, found, Option.bind_some, if_neg notFirst]
        rfl
  rw [nukeSearchStack, unlinked, Option.bind_eq_bind, Option.bind_some]
  refine congrArg some (foldl_kfree_eq (fun a member => ?_) rfl fun a outside => ?_)
  · rw [List.mem_singleton.mp member]
    exact free
  · exact put_of_ne (by simpa using outside) ..

end Tree
end Kerosene.Vfs
