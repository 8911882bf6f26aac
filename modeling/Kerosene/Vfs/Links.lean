import Kerosene.Vfs.Lookup

/-!
# The links of the node tree
-/

namespace Kerosene.Vfs
open Lib Ramfs
variable {φ ε : Type}

namespace Tree
variable {s s' : Tree φ ε} {a b p : Addr} {node : Node φ ε}

/-! ## Small facts about updates -/

theorem put_self (s : Tree φ ε) (a : Addr) (node : Node φ ε) : (s.put a node).node a = some node :=
  Function.update_self ..

theorem put_of_ne (other : b ≠ a) (s : Tree φ ε) (node : Node φ ε) : (s.put a node).node b = s.node b :=
  Function.update_of_ne other ..

theorem kfree_self (s : Tree φ ε) (a : Addr) : (s.kfree a).node a = none := Function.update_self ..

theorem kfree_of_ne (other : b ≠ a) (s : Tree φ ε) : (s.kfree a).node b = s.node b := Function.update_of_ne other ..

theorem modify_self (here : s.node a = some node) (f : Node φ ε → Node φ ε) : (s.modify a f).node a = some (f node) := by
  simp [modify, here]

theorem modify_of_ne (other : b ≠ a) (s : Tree φ ε) (f : Node φ ε → Node φ ε) : (s.modify a f).node b = s.node b :=
  Function.update_of_ne other ..

/-- All of a node but the list it heads and the list it is on. -/
def payload (s : Tree φ ε) (a : Addr) : Option (Node φ ε) :=
  (s.node a).map fun node => { node with children := none, nextSibling := none }

def fsOf (s : Tree φ ε) (a : Addr) : Option φ := (s.node a).map Node.fs

theorem payload_congr (same : s'.node a = s.node a) : s'.payload a = s.payload a := by rw [payload, payload, same]

theorem node_of_payload {node' : Node φ ε} (same : s'.payload a = s.payload a) (here : s'.node a = some node') :
    ∃ node, s.node a = some node ∧ node' = { node with children := node'.children, nextSibling := node'.nextSibling } := by
  rw [payload, here, payload] at same
  obtain ⟨node, found, shape⟩ := Option.map_eq_some_iff.mp same.symm
  refine ⟨node, found, ?_⟩
  cases node
  cases node'
  simp only [Node.mk.injEq] at shape ⊢
  tauto

theorem parent_congr (same : s'.payload a = s.payload a) : s'.parent a = s.parent a := by
  have := congrArg (fun found => found.bind Node.parent) same
  simpa [payload, parent, Option.bind_map, Function.comp_def] using this

theorem fsOf_congr (same : s'.payload a = s.payload a) : s'.fsOf a = s.fsOf a := by
  have := congrArg (fun found => found.map Node.fs) same
  simpa [payload, fsOf, Function.comp_def] using this

theorem isSome_congr (same : s'.payload a = s.payload a) : (s'.node a).isSome = (s.node a).isSome := by
  have := congrArg Option.isSome same
  simpa [payload] using this

theorem setChildren_payload (s : Tree φ ε) (a b : Addr) (children : Option Addr) :
    (s.setChildren a children).payload b = s.payload b := by
  by_cases same : b = a
  · subst same
    cases here : s.node b <;> simp [payload, setChildren, modify, here]
  · exact payload_congr (modify_of_ne same ..)

theorem setNextSibling_payload (s : Tree φ ε) (a b : Addr) (next : Option Addr) :
    (s.setNextSibling a next).payload b = s.payload b := by
  by_cases same : b = a
  · subst same
    cases here : s.node b <;> simp [payload, setNextSibling, modify, here]
  · exact payload_congr (modify_of_ne same ..)

theorem first_setChildren (here : (s.node a).isSome) (children : Option Addr) :
    (s.setChildren a children).first a = children := by
  obtain ⟨node, here⟩ := Option.isSome_iff_exists.mp here
  rw [first, setChildren, modify_self here]
  rfl

theorem first_setChildren_of_ne (other : b ≠ a) (s : Tree φ ε) (children : Option Addr) :
    (s.setChildren a children).first b = s.first b := by
  rw [first, setChildren, modify_of_ne other, first]

theorem next_setChildren (s : Tree φ ε) (a b : Addr) (children : Option Addr) :
    (s.setChildren a children).next b = s.next b := by
  by_cases same : b = a
  · subst same
    cases here : s.node b <;> simp [next, setChildren, modify, here]
  · rw [next, setChildren, modify_of_ne same, next]

theorem next_setNextSibling (here : (s.node a).isSome) (link : Option Addr) :
    (s.setNextSibling a link).next a = link := by
  obtain ⟨node, here⟩ := Option.isSome_iff_exists.mp here
  rw [next, setNextSibling, modify_self here]
  rfl

theorem next_setNextSibling_of_ne (other : b ≠ a) (s : Tree φ ε) (link : Option Addr) :
    (s.setNextSibling a link).next b = s.next b := by
  rw [next, setNextSibling, modify_of_ne other, next]

theorem first_setNextSibling (s : Tree φ ε) (a b : Addr) (link : Option Addr) :
    (s.setNextSibling a link).first b = s.first b := by
  by_cases same : b = a
  · subst same
    cases here : s.node b <;> simp [first, setNextSibling, modify, here]
  · rw [first, setNextSibling, modify_of_ne same, first]

theorem first_eq (here : s.node a = some node) : s.first a = node.children := by rw [first, here]; rfl
theorem next_eq (here : s.node a = some node) : s.next a = node.nextSibling := by rw [next, here]; rfl
theorem parent_eq (here : s.node a = some node) : s.parent a = node.parent := by rw [parent, here]; rfl
theorem fsOf_eq (here : s.node a = some node) : s.fsOf a = some node.fs := by rw [fsOf, here]; rfl

theorem siblingLoop_seg {stops : Node φ ε → Bool} {l : List Addr} {fuel : Nat} {start : Option Addr}
    (list : Seg s.next start l none) (allocated : ∀ a ∈ l, (s.node a).isSome) (enough : l.length ≤ fuel) :
    s.siblingLoop stops fuel start = some (l.find? fun a => (s.node a).any stops) := by
  induction l generalizing start fuel with
  | nil =>
      have : start = none := list
      rw [this, siblingLoop]
      rfl
  | cons a l ih =>
      obtain ⟨node, here⟩ := Option.isSome_iff_exists.mp (allocated a List.mem_cons_self)
      obtain ⟨fuel, rfl⟩ : ∃ n, fuel = n + 1 := ⟨fuel - 1, by simp at enough; omega⟩
      have rest := list.2
      rw [next_eq here] at rest
      rw [list.1, siblingLoop, here, Option.bind_eq_bind, Option.bind_some, List.find?_cons, here, Option.any_some]
      cases stops node with
      | true => rfl
      | false =>
          exact ih rest (fun b member => allocated b (List.mem_cons_of_mem a member)) (by simp at enough; omega)

theorem siblingWhere_seg {p : Node φ ε → Bool} {l : List Addr} {start : Option Addr}
    (list : Seg s.next start l none) (allocated : ∀ a ∈ l, (s.node a).isSome) :
    s.siblingWhere p start = some (l.find? fun a => (s.node a).any p) := by
  have bound := list.nodup.length_le_card
  rw [Fintype.card_fin] at bound
  exact siblingLoop_seg list allocated bound

theorem find_last {l : List Addr} {start : Option Addr} (list : Seg s.next start l none)
    (allocated : ∀ a ∈ l, (s.node a).isSome) :
    (l.find? fun a => (s.node a).any fun node => node.nextSibling.isNone) = l.getLast? := by
  induction l generalizing start with
  | nil => rfl
  | cons a l ih =>
      obtain ⟨node, here⟩ := Option.isSome_iff_exists.mp (allocated a List.mem_cons_self)
      have rest := list.2
      have link := next_eq here
      rw [List.find?_cons, here, Option.any_some]
      cases l with
      | nil =>
          have ends : s.next a = none := rest
          rw [ends] at link
          rw [← link]
          rfl
      | cons b l =>
          have follows : s.next a = some b := rest.1
          rw [follows] at link
          rw [← link, List.getLast?_cons_cons, ← ih rest fun c member => allocated c (List.mem_cons_of_mem a member)]
          rfl

theorem find_before {c : Addr} {init right : List Addr} {start : Option Addr}
    (list : Seg s.next start (init ++ c :: a :: right) none) (allocated : ∀ b ∈ init ++ c :: a :: right, (s.node b).isSome) :
    ((init ++ c :: a :: right).find? fun b => (s.node b).any fun node => node.nextSibling == some a) = some c := by
  have nodup := List.nodup_append'.mp list.nodup
  have notC := (List.nodup_cons.mp nodup.2.1).1
  have stops : ∀ b ∈ init ++ c :: a :: right,
      ((s.node b).any fun node => node.nextSibling == some a) = (s.next b == some a) := by
    intro b member
    obtain ⟨node, here⟩ := Option.isSome_iff_exists.mp (allocated b member)
    rw [next_eq here, here, Option.any_some]
  refine List.find?_eq_some_iff_append.mpr ⟨?_, init, a :: right, rfl, fun b member => ?_⟩
  · rw [stops c (by simp), beq_iff_eq]
    exact list.split.2.1
  · rw [stops b (by simp [member])]
    -- what follows `b` is still in front of `a`
    obtain ⟨i, bound, rfl⟩ := List.getElem_of_mem member
    have follows := list.next_getElem? (i := i) (a := init[i]) (by rw [List.getElem?_append_left bound, List.getElem?_eq_getElem bound])
    rw [follows, Bool.not_eq_eq_eq_not, Bool.not_true, beq_eq_false_iff_ne]
    intro same
    have inFront : a ∈ init ++ [c] := by
      refine List.mem_of_getElem? (i := i + 1) ?_
      rw [show init ++ c :: a :: right = init ++ [c] ++ a :: right by simp,
        List.getElem?_append_left (by simp; omega)] at same
      exact same
    rcases List.mem_append.mp inFront with earlier | isC
    · exact nodup.2.2 earlier (by simp)
    · exact notC (by rw [List.mem_singleton.mp isC]; exact List.mem_cons_self)

end Tree

/-! ## The tree as a forest -/

/-- The links between the nodes of a tree. -/
structure Shape (s : Tree φ ε) (member : Set Addr) (kids : Addr → List Addr) (depth : Addr → Nat) : Prop where
  forest : Forest s.first s.next s.parent member kids depth
  allocated : ∀ a ∈ member, (s.node a).isSome

namespace Shape
variable {s s' : Tree φ ε} {member : Set Addr} {kids : Addr → List Addr} {depth : Addr → Nat}
variable {a b p : Addr} {node : Node φ ε}

section
variable (shape : Shape s member kids depth)
include shape

theorem kidsAllocated (inside : a ∈ member) : ∀ b ∈ kids a, (s.node b).isSome :=
  fun b listed => shape.allocated b (shape.forest.kid a inside b listed).1

theorem siblingWhere (inside : a ∈ member) (stops : Node φ ε → Bool) :
    s.siblingWhere stops (s.first a) = some ((kids a).find? fun b => (s.node b).any stops) :=
  Tree.siblingWhere_seg (shape.forest.list a inside) (shape.kidsAllocated inside)

theorem congr (firsts : ∀ a ∈ member, s'.first a = s.first a) (nexts : ∀ a ∈ member, s'.next a = s.next a)
    (payloads : ∀ a ∈ member, s'.payload a = s.payload a) : Shape s' member kids depth := by
  refine ⟨shape.forest.congr firsts nexts fun a inside => Tree.parent_congr (payloads a inside), fun a inside => ?_⟩
  rw [Tree.isSome_congr (payloads a inside)]
  exact shape.allocated a inside

theorem appendChild (inside : p ∈ member) (new : a ∉ member) (here : s.node a = some node)
    (up : node.parent = some p) (leaf : node.children = none) (alone : node.nextSibling = none) :
    ∃ s', s.appendChild p a = some s' ∧ (∀ b, s'.payload b = s.payload b) ∧ s'.semaphore = s.semaphore ∧
      (∀ b, b ∉ kids p → s'.next b = s.next b) ∧
      Shape s' (insert a member) (Function.update (Function.update kids a []) p (kids p ++ [a]))
        (Function.update depth a (depth p + 1)) := by
  obtain ⟨parentNode, hereP⟩ := Option.isSome_iff_exists.mp (shape.allocated p inside)
  have list := shape.forest.list p inside
  have last := shape.siblingWhere inside fun sibling => sibling.nextSibling.isNone
  rw [Tree.find_last list (shape.kidsAllocated inside), Tree.first_eq hereP] at last
  have leafA : s.first a = none ∧ s.next a = none ∧ s.parent a = some p :=
    ⟨by rw [Tree.first_eq here, leaf], by rw [Tree.next_eq here, alone], by rw [Tree.parent_eq here, up]⟩
  have notP : a ≠ p := by rintro rfl; exact new inside
  have old : ∀ b ∈ member, b ≠ a := by rintro b insideB rfl; exact new insideB
  have extend : ∀ s' : Tree φ ε, (∀ b, s'.payload b = s.payload b) →
      Forest s'.first s'.next s'.parent (insert a member) (Function.update (Function.update kids a []) p (kids p ++ [a]))
        (Function.update depth a (depth p + 1)) →
      Shape s' (insert a member) (Function.update (Function.update kids a []) p (kids p ++ [a]))
        (Function.update depth a (depth p + 1)) := by
    intro s' payloads forest
    refine ⟨forest, fun b inside' => ?_⟩
    rw [Tree.isSome_congr (payloads b)]
    rcases Set.mem_insert_iff.mp inside' with rfl | insideB
    · rw [here]
      rfl
    · exact shape.allocated b insideB
  cases final : (kids p).getLast? with
  | none =>
      have empty : kids p = [] := List.getLast?_eq_none_iff.mp final
      have payloads : ∀ b, (s.setChildren p (some a)).payload b = s.payload b := fun b => s.setChildren_payload ..
      refine ⟨s.setChildren p (some a), ?_, payloads, rfl, fun b _ => s.next_setChildren .., extend _ payloads ?_⟩
      · simp only [Tree.appendChild, hereP, last, final, Option.bind_eq_bind, Option.bind_some]
        rfl
      · refine shape.forest.addLeaf inside new ⟨?_, ?_, ?_⟩ (fun b _ => Tree.parent_congr (payloads b))
          (fun b _ other => Tree.first_setChildren_of_ne other ..) (fun b _ _ => s.next_setChildren ..)
          (.inl ⟨empty, Tree.first_setChildren (shape.allocated p inside) _⟩)
        · rw [Tree.first_setChildren_of_ne notP, leafA.1]
        · rw [Tree.next_setChildren, leafA.2.1]
        · rw [Tree.parent_congr (payloads a), leafA.2.2]
  | some c =>
      have listed : c ∈ kids p := List.mem_of_getLast? final
      have insideC := (shape.forest.kid p inside c listed).1
      have payloads : ∀ b, (s.setNextSibling c (some a)).payload b = s.payload b := fun b => s.setNextSibling_payload ..
      have nexts : ∀ b, b ∉ kids p → (s.setNextSibling c (some a)).next b = s.next b := by
        intro b outside
        refine Tree.next_setNextSibling_of_ne ?_ ..
        rintro rfl
        exact outside listed
      refine ⟨s.setNextSibling c (some a), ?_, payloads, rfl, nexts, extend _ payloads ?_⟩
      · simp only [Tree.appendChild, hereP, last, final, Option.bind_eq_bind, Option.bind_some]
        rfl
      · refine shape.forest.addLeaf inside new ⟨?_, ?_, ?_⟩ (fun b _ => Tree.parent_congr (payloads b))
          (fun b _ _ => s.first_setNextSibling ..) (fun b _ other => Tree.next_setNextSibling_of_ne ?_ ..)
          (.inr ⟨c, final, Tree.next_setNextSibling (shape.allocated c insideC) _, s.first_setNextSibling ..⟩)
        · rw [Tree.first_setNextSibling, leafA.1]
        · rw [Tree.next_setNextSibling_of_ne (old c insideC).symm, leafA.2.1]
        · rw [Tree.parent_congr (payloads a), leafA.2.2]
        · rintro rfl
          exact other final

theorem unlink {g : Set Addr} (inside : a ∈ member) (isGone : a ∈ g)
    (below : ∀ b ∈ member, b ∈ g → ∀ c ∈ kids b, c ∈ g)
    (above : ∀ b ∈ member, b ∈ g → b ≠ a → ∃ q ∈ g, s.parent b = some q)
    (up : s.parent a = some p) (stays : p ∉ g) :
    ∃ s' left right, kids p = left ++ a :: right ∧ s.unlink a = some s' ∧ (∀ b, s'.payload b = s.payload b) ∧
      s'.semaphore = s.semaphore ∧
      ∀ s'' : Tree φ ε, (∀ b, b ∉ g → s''.node b = s'.node b) →
        Shape s'' (member \ g) (Function.update kids p (left ++ right)) depth := by
  obtain ⟨node, here⟩ := Option.isSome_iff_exists.mp (shape.allocated a inside)
  obtain ⟨insideP, listed⟩ := shape.forest.up a inside p up
  obtain ⟨parentNode, hereP⟩ := Option.isSome_iff_exists.mp (shape.allocated p insideP)
  obtain ⟨left, right, split⟩ := List.append_of_mem listed
  have list := shape.forest.list p insideP
  have kidsIn := shape.kidsAllocated insideP
  have nodup := shape.forest.nodup insideP
  rw [split] at list kidsIn nodup
  have upNode : node.parent = some p := by rw [← Tree.parent_eq here, up]
  have nextNode : node.nextSibling = s.next a := (Tree.next_eq here).symm
  have firstNode : parentNode.children = s.first p := (Tree.first_eq hereP).symm
  have first' : ∀ {s' s'' : Tree φ ε} {b : Addr}, s''.node b = s'.node b → s''.first b = s'.first b := by
    intro s' s'' b same
    rw [Tree.first, same, Tree.first]
  have next' : ∀ {s' s'' : Tree φ ε} {b : Addr}, s''.node b = s'.node b → s''.next b = s'.next b := by
    intro s' s'' b same
    rw [Tree.next, same, Tree.next]
  have allocated : ∀ s' s'' : Tree φ ε, (∀ b, s'.payload b = s.payload b) → (∀ b, b ∉ g → s''.node b = s'.node b) →
      ∀ b ∈ member \ g, (s''.node b).isSome := by
    intro s' s'' payloads same b inside'
    rw [same b inside'.2, Tree.isSome_congr (payloads b)]
    exact shape.allocated b inside'.1
  rcases List.eq_nil_or_concat left with rfl | ⟨init, c, rfl⟩
  · have first : s.first p = some a := list.1
    have payloads : ∀ b, (s.setChildren p (s.next a)).payload b = s.payload b := fun b => s.setChildren_payload ..
    refine ⟨s.setChildren p (s.next a), [], right, split, ?_, payloads, rfl, fun s'' same => ⟨?_, allocated _ s'' payloads same⟩⟩
    · rw [Tree.unlink, here]
      simp only [Option.bind_eq_bind, Option.bind_some, upNode, hereP, firstNode, first, if_true, nextNode]
      rfl
    · refine shape.forest.removeBranch inside isGone below above up stays split
        (fun b _ kept => Tree.parent_congr (by rw [Tree.payload_congr (same b kept), payloads b])) (fun b _ kept other => ?_)
        (fun b _ kept _ => ?_) (.inl ⟨rfl, ?_⟩)
      · rw [first' (same b kept), Tree.first_setChildren_of_ne other]
      · rw [next' (same b kept), Tree.next_setChildren]
      · rw [first' (same p stays), Tree.first_setChildren (shape.allocated p insideP)]
  · rw [List.concat_eq_append] at split list kidsIn nodup
    have final : (init ++ [c]).getLast? = some c := List.getLast?_concat
    have joined : init ++ [c] ++ a :: right = init ++ c :: a :: right := by simp
    have apart := (List.nodup_append'.mp nodup).2.2
    have listedC : c ∈ kids p := by rw [split]; simp
    have insideC := (shape.forest.kid p insideP c listedC).1
    have notA : c ≠ a := by rintro rfl; exact apart (by simp) List.mem_cons_self
    have keptC : c ∉ g := shape.forest.kid_stays above insideP stays listedC notA
    have notFirst : s.first p ≠ some a := by
      intro same
      have heads := list.head
      rw [same, List.head?_append_of_ne_nil _ (by simp)] at heads
      exact apart (List.mem_of_mem_head? heads.symm) List.mem_cons_self
    have payloads : ∀ b, (s.setNextSibling c (s.next a)).payload b = s.payload b := fun b => s.setNextSibling_payload ..
    refine ⟨s.setNextSibling c (s.next a), init ++ [c], right, split, ?_, payloads, rfl,
      fun s'' same => ⟨?_, allocated _ s'' payloads same⟩⟩
    · have before := shape.siblingWhere insideP fun sibling => sibling.nextSibling == some a
      rw [split, joined, Tree.find_before (joined ▸ list) (joined ▸ kidsIn)] at before
      rw [Tree.unlink, here]
      simp only [Option.bind_eq_bind, Option.bind_some, upNode, hereP, firstNode, notFirst, if_false, before, nextNode]
      rfl
    · refine shape.forest.removeBranch inside isGone below above up stays split
        (fun b _ kept => Tree.parent_congr (by rw [Tree.payload_congr (same b kept), payloads b])) (fun b _ kept other => ?_)
        (fun b _ kept other => ?_) (.inr ⟨c, final, ?_, ?_⟩)
      · rw [first' (same b kept), Tree.first_setNextSibling]
      · rw [next' (same b kept), Tree.next_setNextSibling_of_ne (by rintro rfl; exact other final)]
      · rw [next' (same c keptC), Tree.next_setNextSibling (shape.allocated c insideC)]
      · rw [first' (same p stays), Tree.first_setNextSibling]

end
end Shape

structure Linked (V : Volumes φ) (s : Tree φ ε) (member : Set Addr) (kids : Addr → List Addr) (depth : Addr → Nat) : Prop where
  forest : Forest s.first s.next s.parent member kids depth
  allocated : ∀ a ∈ member, (s.node a).isSome
  fs : ∀ a ∈ member, ∀ b ∈ kids a, s.fsOf b = s.fsOf a
  top : ∀ a ∈ member, s.parent a = none → ∃ f, a = V.root f ∧ s.fsOf a = some f

namespace Linked
variable {V : Volumes φ} {s s' : Tree φ ε} {member : Set Addr} {kids : Addr → List Addr} {depth : Addr → Nat}
variable {a b p : Addr} {node : Node φ ε} {f : φ}

section
variable (linked : Linked V s member kids depth)
include linked

theorem shape : Shape s member kids depth := ⟨linked.forest, linked.allocated⟩

theorem siblingWhere (inside : a ∈ member) (stops : Node φ ε → Bool) :
    s.siblingWhere stops (s.first a) = some ((kids a).find? fun b => (s.node b).any stops) :=
  linked.shape.siblingWhere inside stops

theorem congr (firsts : ∀ a ∈ member, s'.first a = s.first a) (nexts : ∀ a ∈ member, s'.next a = s.next a)
    (payloads : ∀ a ∈ member, s'.payload a = s.payload a) : Linked V s' member kids depth := by
  obtain ⟨forest, allocated⟩ := linked.shape.congr firsts nexts payloads
  refine ⟨forest, allocated, fun a inside b listed => ?_, fun a inside top => ?_⟩
  · rw [Tree.fsOf_congr (payloads a inside), Tree.fsOf_congr (payloads b (linked.forest.kid a inside b listed).1)]
    exact linked.fs a inside b listed
  · rw [Tree.parent_congr (payloads a inside)] at top
    rw [Tree.fsOf_congr (payloads a inside)]
    exact linked.top a inside top

theorem reaches (inside : a ∈ member) (ofFs : s.fsOf a = some f) :
    Relation.ReflTransGen (IsChild s.first s.next) (V.root f) a := by
  obtain ⟨r, insideR, top, below⟩ := linked.forest.exists_root inside
  obtain ⟨f', rfl, fsR⟩ := linked.top r insideR top
  have same : s.fsOf a = s.fsOf (V.root f') := by
    clear inside ofFs
    induction below with
    | refl => rfl
    | tail above child ih =>
        have insideB := linked.forest.descendant_member insideR above
        rw [linked.fs _ insideB _ ((linked.forest.isChild_iff insideB).mp child), ih]
  rw [fsR, ofFs] at same
  cases same
  exact below

theorem appendChild (inside : p ∈ member) (new : a ∉ member) (here : s.node a = some node)
    (up : node.parent = some p) (leaf : node.children = none) (alone : node.nextSibling = none)
    (sameFs : s.fsOf a = s.fsOf p) :
    ∃ s', s.appendChild p a = some s' ∧ (∀ b, s'.payload b = s.payload b) ∧ s'.semaphore = s.semaphore ∧
      Linked V s' (insert a member) (Function.update (Function.update kids a []) p (kids p ++ [a]))
        (Function.update depth a (depth p + 1)) := by
  obtain ⟨s', done, payloads, semaphores, -, forest, allocated⟩ := linked.shape.appendChild inside new here up leaf alone
  have old : ∀ b ∈ member, b ≠ a := by rintro b insideB rfl; exact new insideB
  refine ⟨s', done, payloads, semaphores, forest, allocated, fun b inside' c listed => ?_, fun b inside' top => ?_⟩
  · rw [Tree.fsOf_congr (payloads b), Tree.fsOf_congr (payloads c)]
    by_cases same : b = p
    · subst same
      rw [Function.update_self] at listed
      rcases List.mem_append.mp listed with before | isNew
      · exact linked.fs b inside c before
      · rw [List.mem_singleton.mp isNew, sameFs]
    · rw [Function.update_of_ne same] at listed
      rcases Set.mem_insert_iff.mp inside' with rfl | insideB
      · rw [Function.update_self] at listed
        cases listed
      · rw [Function.update_of_ne (old b insideB)] at listed
        exact linked.fs b insideB c listed
  · rw [Tree.parent_congr (payloads b)] at top
    rw [Tree.fsOf_congr (payloads b)]
    rcases Set.mem_insert_iff.mp inside' with rfl | insideB
    · rw [Tree.parent_eq here, up] at top
      cases top
    · exact linked.top b insideB top

theorem unlink {g : Set Addr} (inside : a ∈ member) (isGone : a ∈ g)
    (below : ∀ b ∈ member, b ∈ g → ∀ c ∈ kids b, c ∈ g)
    (above : ∀ b ∈ member, b ∈ g → b ≠ a → ∃ q ∈ g, s.parent b = some q)
    (up : s.parent a = some p) (stays : p ∉ g) :
    ∃ s' left right, kids p = left ++ a :: right ∧ s.unlink a = some s' ∧ (∀ b, s'.payload b = s.payload b) ∧
      s'.semaphore = s.semaphore ∧
      ∀ s'' : Tree φ ε, (∀ b, b ∉ g → s''.node b = s'.node b) →
        Linked V s'' (member \ g) (Function.update kids p (left ++ right)) depth := by
  obtain ⟨s', left, right, split, done, payloads, semaphores, rest⟩ :=
    linked.shape.unlink inside isGone below above up stays
  refine ⟨s', left, right, split, done, payloads, semaphores, fun s'' same => ?_⟩
  obtain ⟨forest, allocated⟩ := rest s'' same
  have kept : ∀ b, b ∉ g → s''.payload b = s.payload b := fun b stays =>
    (Tree.payload_congr (same b stays)).trans (payloads b)
  refine ⟨forest, allocated, fun b inside' c listed => ?_, fun b inside' top => ?_⟩
  · obtain ⟨insideC, upC, -⟩ := forest.kid b inside' c listed
    rw [Tree.parent_congr (kept c insideC.2)] at upC
    rw [Tree.fsOf_congr (kept b inside'.2), Tree.fsOf_congr (kept c insideC.2)]
    exact linked.fs b inside'.1 c (linked.forest.up c insideC.1 b upC).2
  · rw [Tree.parent_congr (kept b inside'.2)] at top
    rw [Tree.fsOf_congr (kept b inside'.2)]
    exact linked.top b inside'.1 top

theorem unlinkAndFreeNode (inside : a ∈ member) (leaf : kids a = []) (up : s.parent a = some p) :
    ∃ s' left right, kids p = left ++ a :: right ∧ s.unlinkAndFreeNode a = some s' ∧ s'.node a = none ∧
      (∀ b, b ≠ a → s'.payload b = s.payload b) ∧
      Linked V s' (member \ {a}) (Function.update kids p (left ++ right)) depth := by
  obtain ⟨node, here⟩ := Option.isSome_iff_exists.mp (linked.allocated a inside)
  obtain ⟨insideP, listed⟩ := linked.forest.up a inside p up
  have notP : p ≠ a := by
    rintro rfl
    rw [leaf] at listed
    cases listed
  obtain ⟨s', left, right, split, done, payloads, -, finish⟩ := linked.unlink (g := {a}) inside rfl
    (fun b _ same c listed => by rw [Set.mem_singleton_iff.mp same, leaf] at listed; cases listed)
    (fun b _ same other => absurd same other) up notP
  have others : ∀ b, b ≠ a → ((s'.kfreeSemaphore node).kfree a).node b = s'.node b := by
    intro b other
    rw [Tree.kfree_of_ne other, Tree.kfreeSemaphore]
    split
    · split_ifs <;> rfl
    · rfl
  refine ⟨(s'.kfreeSemaphore node).kfree a, left, right, split, ?_, Tree.kfree_self .., fun b other => ?_,
    finish _ others⟩
  · rw [Tree.unlinkAndFreeNode, here, Option.bind_eq_bind, Option.bind_some, done]
    rfl
  · rw [Tree.payload_congr (others b other), payloads b]

end
end Linked
end Kerosene.Vfs
