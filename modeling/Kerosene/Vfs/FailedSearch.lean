import Kerosene.Vfs.Branch
import Kerosene.Vfs.Frames

/-!
# What a failed search leaves behind

The error path unlinks the first node of the search stack and frees them all. That undoes the search when
the other nodes are below the first one.
-/

namespace Kerosene.Vfs
open Lib Ramfs Relation
variable {σ φ ε : Type}

theorem Shape.lists {s : Tree φ ε} {member : Set Addr} {kids : Addr → List Addr} {depth : Addr → Nat} {p : Addr}
    (shape : Shape s member kids depth) (inside : p ∈ member) : s.Lists p (kids p) := by
  refine ⟨shape.forest.list p inside, fun b listed => ?_⟩
  rcases List.mem_cons.mp listed with rfl | isKid
  · exact shape.allocated b inside
  · exact shape.kidsAllocated inside b isKid

namespace Tree
variable {s₀ s s' : Tree φ ε} {a b p q new bottom : Addr} {node : Node φ ε} {stack rest : List Addr} {strayed : Bool}

/-- All nodes are linked, each to its parent, and a node without a parent has no siblings. -/
structure WellFormed (s : Tree φ ε) : Prop where
  shape : ∃ kids depth, Shape s {a | (s.node a).isSome} kids depth
  alone : ∀ a, s.parent a = none → s.next a = none

/-- No link leads to a node that is not there. -/
def NoDangling (s : Tree φ ε) : Prop :=
  ∀ a node b, s.node a = some node → node.children = some b ∨ node.nextSibling = some b ∨ node.parent = some b →
    (s.node b).isSome

theorem WellFormed.noDangling (wellFormed : s.WellFormed) : s.NoDangling := by
  obtain ⟨kids, depth, forest, -⟩ := wellFormed.shape
  intro a node b here link
  have inside : a ∈ {a | (s.node a).isSome} := by
    change (s.node a).isSome
    rw [here]
    rfl
  rcases link with children | nextSibling | parent
  · have first : b ∈ kids a := by
      have heads := (forest.list a inside).head
      rw [first_eq here, children] at heads
      exact List.mem_of_mem_head? heads.symm
    exact (forest.kid a inside b first).1
  · rw [← next_eq here] at nextSibling
    cases up : s.parent a with
    | none =>
        rw [wellFormed.alone a up] at nextSibling
        cases nextSibling
    | some p =>
        obtain ⟨insideP, listed⟩ := forest.up a inside p up
        obtain ⟨i, bound, rfl⟩ := List.getElem_of_mem listed
        rw [(forest.list p insideP).next_getElem? (List.getElem?_eq_getElem bound)] at nextSibling
        exact (forest.kid p insideP b (List.mem_of_getElem? nextSibling)).1
  · rw [← parent_eq here] at parent
    exact (forest.up a inside b parent).1

theorem WellFormed.lists (wellFormed : s.WellFormed) (allocated : (s.node p).isSome) : ∃ l, s.Lists p l := by
  obtain ⟨kids, depth, shape⟩ := wellFormed.shape
  exact ⟨kids p, shape.lists allocated⟩

theorem put_free (free : s.node new = none) (node : Node φ ε) (allocated : (s.node a).isSome) :
    a ≠ new ∧ (s.put new node).node a = s.node a := by
  have other : a ≠ new := by
    rintro rfl
    rw [free] at allocated
    cases allocated
  exact ⟨other, put_of_ne other ..⟩

end Tree

-- the new node is on no list
theorem Shape.put {s : Tree φ ε} {kids : Addr → List Addr} {depth : Addr → Nat} {new : Addr}
    (shape : Shape s {a | (s.node a).isSome} kids depth) (free : s.node new = none) (node : Node φ ε) :
    Shape (s.put new node) {a | (s.node a).isSome} kids depth := by
  have put : ∀ a, (s.node a).isSome → (s.put new node).node a = s.node a := fun a allocated =>
    (Tree.put_free free node allocated).2
  refine shape.congr (fun a allocated => ?_) (fun a allocated => ?_) fun a allocated => Tree.payload_congr (put a allocated)
  · rw [Tree.first, put a allocated, ← Tree.first]
  · rw [Tree.next, put a allocated, ← Tree.next]

namespace Tree
variable {s₀ s s' : Tree φ ε} {a b p q new bottom : Addr} {node : Node φ ε} {stack rest : List Addr} {strayed : Bool}

theorem WellFormed.load (wellFormed : s.WellFormed) (free : s.node new = none) (inside : (s.node p).isSome)
    (up : node.parent = some p) (leaf : node.children = none) (alone : node.nextSibling = none)
    (done : (s.put new node).appendChild p new = some s') :
    s'.WellFormed ∧ (∀ a, (s'.node a).isSome ↔ a = new ∨ (s.node a).isSome) ∧
      (∀ a, a ≠ new → s'.parent a = s.parent a) ∧ s'.parent new = some p := by
  obtain ⟨kids, depth, shape⟩ := wellFormed.shape
  have isNew : new ∉ {a | (s.node a).isSome} := fun again => (put_free free node again).1 rfl
  obtain ⟨s₁, done', payloads, -, nexts, grown⟩ := (shape.put free node).appendChild inside isNew (put_self ..) up leaf alone
  rw [done'] at done
  cases done
  have parents : ∀ a, a ≠ new → s'.parent a = s.parent a := fun a other => by
    rw [parent_congr (payloads a), parent, put_of_ne other, ← parent]
  have parentNew : s'.parent new = some p := by
    rw [parent_congr (payloads new), parent_eq (put_self ..), up]
  have nodes : ∀ a, (s'.node a).isSome ↔ a = new ∨ (s.node a).isSome := by
    intro a
    rw [isSome_congr (payloads a)]
    by_cases same : a = new
    · subst same
      simp [put_self]
    · rw [put_of_ne same]
      simp [same]
  have members : insert new {a | (s.node a).isSome} = {a | (s'.node a).isSome} := Set.ext fun a => (nodes a).symm
  rw [members] at grown
  refine ⟨⟨⟨_, _, grown⟩, fun a top => ?_⟩, nodes, parents, parentNew⟩
  have isOther : a ≠ new := by
    rintro rfl
    rw [parentNew] at top
    cases top
  rw [parents a isOther] at top
  have notKid : a ∉ kids p := by
    intro listed
    rw [(shape.forest.kid p inside a listed).2.1] at top
    cases top
  rw [nexts a notKid, next, put_of_ne isOther, ← next]
  exact wellFormed.alone a top

/-! ## In the middle of a search -/

/-- A search that began in `s₀` has linked the nodes of `stack`, and `strayed` says whether one of them,
but the first, is in a directory of `s₀`. -/
structure Searching (s₀ s : Tree φ ε) (stack : List Addr) (strayed : Bool) : Prop where
  wellFormed : s.WellFormed
  nodes : ∀ a, (s.node a).isSome ↔ (s₀.node a).isSome ∨ a ∈ stack
  fresh : ∀ a ∈ stack, s₀.node a = none
  spares : s₀.Spares s
  start : stack = [] → s = s₀ ∧ strayed = false
  hangs : ∀ bottom, stack.head? = some bottom → ∃ p, s.parent bottom = some p ∧ (s₀.node p).isSome
  branch : stack ≠ [] → strayed = false → s₀.Branch s stack
  apart : strayed = true → ∃ bottom rest x q, stack = bottom :: rest ∧ x ∈ rest ∧ x ≠ bottom ∧ s.parent x = some q ∧
    (s₀.node q).isSome

theorem WellFormed.searching (wellFormed : s.WellFormed) : s.Searching s [] false where
  wellFormed := wellFormed
  nodes := by simp
  fresh := by simp
  spares := .refl s
  start := fun _ => ⟨rfl, rfl⟩
  hangs := by simp
  branch := fun nonempty => absurd rfl nonempty
  apart := by simp

namespace Searching
variable {kids : Addr → List Addr} {depth : Addr → Nat}

theorem notOld (searching : s₀.Searching s stack strayed) (member : a ∈ stack) : ¬ (s₀.node a).isSome := by
  rw [searching.fresh a member]
  exact Bool.false_ne_true

theorem kids_new (searching : s₀.Searching s stack strayed) (wellFormed : s₀.WellFormed)
    (shape : Shape s {a | (s.node a).isSome} kids depth) (member : b ∈ stack) (listed : a ∈ kids b) : a ∈ stack := by
  have allocated : (s.node b).isSome := (searching.nodes b).mpr (.inr member)
  obtain ⟨insideA, up, -⟩ := shape.forest.kid b allocated a listed
  rcases (searching.nodes a).mp insideA with old | isNew
  · obtain ⟨kids₀, depth₀, shape₀⟩ := wellFormed.shape
    rw [parent_congr (searching.spares.payload a old)] at up
    exact absurd (shape₀.forest.up a old b up).1 (searching.notOld member)
  · exact isNew

theorem load (searching : s₀.Searching s stack strayed) (wellFormed : s₀.WellFormed) (free : s.node new = none)
    (inside : (s.node p).isSome) (up : node.parent = some p) (leaf : node.children = none) (alone : node.nextSibling = none)
    (done : (s.put new node).appendChild p new = some s') :
    s₀.Searching s' (stack ++ [new]) (strayed || (!stack.isEmpty && (s₀.node p).isSome)) := by
  obtain ⟨grown, nodes, parents, parentNew⟩ := searching.wellFormed.load free inside up leaf alone done
  have notOld : ¬ ((s₀.node new).isSome ∨ new ∈ stack) := by
    rw [← searching.nodes, free]
    exact Bool.false_ne_true
  rw [not_or, Option.not_isSome_iff_eq_none] at notOld
  have stacked : ∀ a ∈ stack, s'.parent a = s.parent a := by
    refine fun a member => parents a ?_
    rintro rfl
    exact notOld.2 member
  refine ⟨grown, fun a => ?_, fun a member => ?_, ?_, fun empty => ?_, fun bottom head => ?_, fun _ stays => ?_, fun goes => ?_⟩
  · rw [nodes a, searching.nodes a, List.mem_append, List.mem_singleton]
    tauto
  · rcases List.mem_append.mp member with old | isLast
    · exact searching.fresh a old
    · rw [List.mem_singleton.mp isLast]
      exact notOld.1
  · exact (searching.spares.put notOld.1 node).lists (appendChild_keeps done)
  · exact absurd empty (List.append_ne_nil_of_right_ne_nil _ (List.cons_ne_nil _ _))
  · cases stack with
    | nil =>
        obtain rfl : new = bottom := Option.some.inj head
        obtain ⟨rfl, -⟩ := searching.start rfl
        exact ⟨p, parentNew, inside⟩
    | cons x rest =>
        obtain rfl : x = bottom := Option.some.inj head
        rw [stacked x List.mem_cons_self]
        exact searching.hangs x rfl
  · rw [Bool.or_eq_false_iff] at stays
    cases stack with
    | nil =>
        obtain ⟨rfl, -⟩ := searching.start rfl
        obtain ⟨l, lists⟩ := wellFormed.lists inside
        rw [appendChild_eq (lists.put free node)] at done
        cases done
        exact .start lists free up alone
    | cons x rest =>
        have branch := searching.branch (List.cons_ne_nil _ _) stays.1
        have notOldP : ¬ (s₀.node p).isSome := by simpa using stays.2
        have member : p ∈ x :: rest := ((searching.nodes p).mp inside).resolve_left notOldP
        obtain ⟨kids, depth, shape⟩ := searching.wellFormed.shape
        rw [appendChild_eq ((shape.lists inside).put free node)] at done
        cases done
        refine (branch.push notOld.1 notOld.2 node).link (List.mem_append_left _ member)
          (fun a listed => List.mem_append_left _ (searching.kids_new wellFormed shape member listed)) fun bottom head listed => ?_
        obtain rfl : x = bottom := Option.some.inj head
        -- the first node is in a directory of `s₀`
        obtain ⟨q, hangs, old⟩ := searching.hangs x rfl
        rw [(shape.forest.kid p inside x listed).2.1] at hangs
        exact notOldP (Option.some.inj hangs ▸ old)
  · rw [Bool.or_eq_true] at goes
    rcases goes with before | now
    · obtain ⟨bottom, rest, x, q, rfl, member, other, up, old⟩ := searching.apart before
      exact ⟨bottom, rest ++ [new], x, q, rfl, List.mem_append_left _ member, other,
        (stacked x (List.mem_cons_of_mem _ member)).trans up, old⟩
    · cases stack with
      | nil => cases now
      | cons x rest =>
          refine ⟨x, rest ++ [new], new, p, rfl, by simp, ?_, parentNew, by simpa using now⟩
          rintro rfl
          exact notOld.2 List.mem_cons_self

end Searching

/-! ## The error path -/

section
variable {member : Set Addr} {kids : Addr → List Addr} {depth : Addr → Nat} {x : Addr} (shape : Shape s member kids depth)
  (insideB : bottom ∈ member) (hangs : s.parent bottom = some p) (staysP : p ∉ bottom :: rest)
  (closed : ∀ b ∈ member, b ∈ bottom :: rest → ∀ c ∈ kids b, c ∈ bottom :: rest)
  (insideX : x ∈ member) (other : x ≠ bottom) (up : s.parent x = some q) (staysQ : q ∉ bottom :: rest)
include shape insideB hangs staysP closed insideX other up staysQ

theorem unlink_keeps_listed :
    ∃ s₁ l, s.unlink bottom = some s₁ ∧ (s₁.node q).isSome ∧ Seg s₁.next (s₁.first q) l none ∧ x ∈ l := by
  generalize set : {b | b ∈ bottom :: rest ∧ ReflTransGen (IsChild s.first s.next) bottom b} = g
  have isGone : ∀ b, b ∈ g ↔ b ∈ bottom :: rest ∧ ReflTransGen (IsChild s.first s.next) bottom b := by
    rw [← set]
    exact fun b => Iff.rfl
  have below : ∀ b ∈ member, b ∈ g → ∀ c ∈ kids b, c ∈ g := by
    intro b inside goneB c listed
    obtain ⟨stacked, path⟩ := (isGone b).mp goneB
    exact (isGone c).mpr ⟨closed b inside stacked c listed, path.tail ((shape.forest.isChild_iff inside).mpr listed)⟩
  have stacked : ∀ b, ReflTransGen (IsChild s.first s.next) bottom b → b ∈ bottom :: rest := by
    intro b path
    induction path with
    | refl => exact List.mem_cons_self
    | tail earlier child ih =>
        have inside := shape.forest.descendant_member insideB earlier
        exact closed _ inside ih _ ((shape.forest.isChild_iff inside).mp child)
  have above : ∀ b ∈ member, b ∈ g → b ≠ bottom → ∃ r ∈ g, s.parent b = some r := by
    intro b _ goneB notBottom
    rcases ((isGone b).mp goneB).2.cases_tail with same | ⟨r, path, child⟩
    · exact absurd same notBottom
    · have inside := shape.forest.descendant_member insideB path
      exact ⟨r, (isGone r).mpr ⟨stacked r path, path⟩, (shape.forest.isChild_member inside child).2.1⟩
  obtain ⟨s₁, left, right, split, unlinked, -, -, others⟩ :=
    shape.unlink insideB ((isGone bottom).mpr ⟨List.mem_cons_self, .refl⟩) below above hangs
      fun gone => staysP ((isGone p).mp gone).1
  have shape₁ := others s₁ fun _ _ => rfl
  obtain ⟨insideQ, listed⟩ := shape.forest.up x insideX q up
  have inQ : q ∈ member \ g := ⟨insideQ, fun gone => staysQ ((isGone q).mp gone).1⟩
  refine ⟨s₁, _, unlinked, shape₁.allocated q inQ, shape₁.forest.list q inQ, ?_⟩
  by_cases same : q = p
  · subst same
    rw [Function.update_self]
    rw [split] at listed
    simp at listed ⊢
    tauto
  · rwa [Function.update_of_ne same]

theorem nukeSearchStack_dangles (freed : x ∈ rest) (done : nukeSearchStack s (bottom :: rest) = some s') : ¬ s'.WellFormed := by
  intro wellFormed
  obtain ⟨s₁, l, unlinked, allocated, list, listed⟩ :=
    unlink_keeps_listed shape insideB hangs staysP closed insideX other up staysQ
  rw [nukeSearchStack, unlinked, Option.bind_eq_bind, Option.bind_some, Option.pure_def, Option.some.injEq] at done
  obtain ⟨-, nodes⟩ := foldl_kfree (bottom :: rest) s₁
  rw [done] at nodes
  have kept : ∀ b, b ∉ bottom :: rest → s'.node b = s₁.node b := fun b outside => by rw [nodes b, if_neg outside]
  have remains : ∀ b, (s'.node b).isSome → b ∉ bottom :: rest := by
    intro b there stacked
    rw [nodes b, if_pos stacked] at there
    cases there
  obtain ⟨kids', depth', forest, -⟩ := wellFormed.shape
  have there : (s'.node q).isSome := by rwa [kept q staysQ]
  have list' := forest.list q there
  rw [first, kept q staysQ, ← first] at list'
  have same : Seg s₁.next (s₁.first q) (kids' q) none := list'.congr fun b isKid => by
    rw [next, ← kept b (remains b (forest.kid q there b isKid).1), ← next]
  rw [list.unique same] at listed
  exact remains x (forest.kid q there x listed).1 (List.mem_cons_of_mem bottom freed)

end

/-- When one of the nodes on the stack is in a directory of `s₀`, to free them leaves a link to it. What is on no
list, in `more`, does not matter. -/
theorem Searching.dangles {t : Tree φ ε} {kids : Addr → List Addr} {depth : Addr → Nat} {more : List Addr}
    (searching : s₀.Searching s stack true) (wellFormed : s₀.WellFormed) (old : Shape s {a | (s.node a).isSome} kids depth)
    (shape : Shape t {a | (s.node a).isSome} kids depth) (parents : ∀ a, (s.node a).isSome → t.parent a = s.parent a)
    (free : ∀ a ∈ more, s.node a = none) (done : nukeSearchStack t (stack ++ more) = some s') : ¬ s'.WellFormed := by
  obtain ⟨bottom, rest, x, q, rfl, listed, other, up, oldQ⟩ := searching.apart rfl
  obtain ⟨p, hangs, oldP⟩ := searching.hangs bottom rfl
  have allocated : ∀ a ∈ bottom :: rest, (s.node a).isSome := fun a member => (searching.nodes a).mpr (.inr member)
  have inB := allocated bottom List.mem_cons_self
  have inX := allocated x (List.mem_cons_of_mem _ listed)
  have inStack : ∀ a ∈ bottom :: (rest ++ more), (s.node a).isSome → a ∈ bottom :: rest := by
    intro a member there
    rw [← List.cons_append] at member
    refine (List.mem_append.mp member).resolve_right fun inMore => ?_
    rw [free a inMore] at there
    cases there
  have stays : ∀ a, (s₀.node a).isSome → a ∉ bottom :: (rest ++ more) := fun a old member =>
    searching.notOld (inStack a member ((searching.nodes a).mpr (.inl old))) old
  refine nukeSearchStack_dangles shape inB ((parents bottom inB).trans hangs) (stays p oldP) (fun b there member c isKid => ?_)
    inX other ((parents x inX).trans up) (stays q oldQ) (List.mem_append_left _ listed) done
  rw [← List.cons_append]
  exact List.mem_append_left _ (searching.kids_new wellFormed old (inStack b member there) isKid)

/-- Where a search goes wrong: the last node of the stack may be on no list. -/
inductive Stopped (s₀ : Tree φ ε) (strayed : Bool) : Tree φ ε → List Addr → Prop
  | linked {s : Tree φ ε} {stack : List Addr} : s₀.Searching s stack strayed → Stopped s₀ strayed s stack
  | unlinked {s : Tree φ ε} {stack : List Addr} {new : Addr} {node : Node φ ε} : s₀.Searching s stack strayed →
      s.node new = none → (∀ p, node.parent = some p → (s.node p).isSome) → Stopped s₀ strayed (s.put new node) (stack ++ [new])

theorem Stopped.restored (stopped : Stopped s₀ false s stack) (wellFormed : s₀.WellFormed)
    (done : nukeSearchStack s stack = some s') : s' = s₀ := by
  cases stopped with
  | linked searching =>
      cases stack with
      | nil =>
          rw [nukeSearchStack] at done
          rw [← Option.some.inj done]
          exact (searching.start rfl).1
      | cons bottom rest =>
          rw [(searching.branch (List.cons_ne_nil _ _) rfl).undo] at done
          exact (Option.some.inj done).symm
  | @unlinked s stack new node searching free up =>
      cases stack with
      | nil =>
          obtain ⟨rfl, -⟩ := searching.start rfl
          rw [List.nil_append, undo_unlinked free fun p parent => wellFormed.lists (up p parent)] at done
          exact (Option.some.inj done).symm
      | cons bottom rest =>
          have notOld : ¬ ((s₀.node new).isSome ∨ new ∈ bottom :: rest) := by
            rw [← searching.nodes, free]
            exact Bool.false_ne_true
          rw [not_or, Option.not_isSome_iff_eq_none] at notOld
          have branch := (searching.branch (List.cons_ne_nil _ _) rfl).push notOld.1 notOld.2 node
          rw [branch.undo] at done
          exact (Option.some.inj done).symm

theorem Stopped.dangles (stopped : Stopped s₀ true s stack) (wellFormed : s₀.WellFormed)
    (done : nukeSearchStack s stack = some s') : ¬ s'.WellFormed := by
  cases stopped with
  | linked searching =>
      obtain ⟨kids, depth, shape⟩ := searching.wellFormed.shape
      rw [← List.append_nil stack] at done
      exact searching.dangles wellFormed shape shape (fun _ _ => rfl) (by simp) done
  | @unlinked s stack new node searching free up =>
      obtain ⟨kids, depth, shape⟩ := searching.wellFormed.shape
      refine searching.dangles wellFormed shape (shape.put free node) (fun a allocated => ?_) (fun a member => ?_) done
      · rw [parent, (put_free free node allocated).2, ← parent]
      · rw [List.mem_singleton.mp member, free]

theorem unlink_total {member : Set Addr} {kids : Addr → List Addr} {depth : Addr → Nat} (shape : Shape s member kids depth)
    (here : s.node a = some node) (up : ∀ p, node.parent = some p → p ∈ member) : ∃ s', s.unlink a = some s' := by
  rw [unlink, here]
  simp only [Option.bind_eq_bind, Option.bind_some]
  cases parent : node.parent with
  | none => exact ⟨s, rfl⟩
  | some p =>
      obtain ⟨parentNode, hereP⟩ := Option.isSome_iff_exists.mp (shape.allocated p (up p parent))
      have searched := shape.siblingWhere (up p parent) fun sibling => sibling.nextSibling == some a
      rw [first_eq hereP] at searched
      simp only [hereP, Option.bind_some, searched]
      split_ifs
      · exact ⟨_, rfl⟩
      · cases (kids p).find? fun b => (s.node b).any fun sibling => sibling.nextSibling == some a <;> exact ⟨_, rfl⟩

theorem Stopped.nukes (stopped : Stopped s₀ strayed s stack) : ∃ s', nukeSearchStack s stack = some s' := by
  have ends : ∀ {t : Tree φ ε} {bottom : Addr} {rest : List Addr}, (∃ t', t.unlink bottom = some t') →
      ∃ t', nukeSearchStack t (bottom :: rest) = some t' := by
    rintro t bottom rest ⟨t', unlinked⟩
    exact ⟨_, by rw [nukeSearchStack, unlinked]; rfl⟩
  cases stopped with
  | linked searching =>
      cases stack with
      | nil => exact ⟨s, rfl⟩
      | cons bottom rest =>
          obtain ⟨kids, depth, shape⟩ := searching.wellFormed.shape
          obtain ⟨node, here⟩ := Option.isSome_iff_exists.mp ((searching.nodes bottom).mpr (.inr List.mem_cons_self))
          exact ends (unlink_total shape here fun p up => searching.wellFormed.noDangling bottom node p here (.inr (.inr up)))
  | @unlinked s stack new node searching free up =>
      obtain ⟨kids, depth, shape⟩ := searching.wellFormed.shape
      have shape' := shape.put free node
      cases stack with
      | nil => exact ends (unlink_total shape' (put_self ..) up)
      | cons bottom rest =>
          have allocated := (searching.nodes bottom).mpr (.inr List.mem_cons_self)
          obtain ⟨bottomNode, here⟩ := Option.isSome_iff_exists.mp allocated
          rw [← (put_free free node allocated).2] at here
          refine ends (unlink_total shape' here fun p up => ?_)
          rw [(put_free free node allocated).2] at here
          exact searching.wellFormed.noDangling bottom bottomNode p here (.inr (.inr up))

end Tree

/-! ## The walk -/

section
variable (V : Volumes φ) (S : Store σ φ ε) (disk : σ) (mode : FileMode)

/-- Whether the walk loads a node into a directory of `s₀` after it has loaded another one. A walk that goes
too deep frees nothing. -/
def straysLoop (s₀ : Tree φ ε) :
    (fuel : Nat) → (s : Tree φ ε) → (current : Addr) → (stack : List Addr) → (path : Name) → List (Grant φ ε) →
    (strayed : Bool) → Option Bool
  | 0, _, _, _, _, _, _ => none
  | fuel + 1, s, current, stack, path, grants, strayed =>
      match strtok path with
      | none => some strayed
      | some (name, rest) =>
          if isDot name then do straysLoop s₀ fuel s (← s.followMount current) stack rest grants strayed
          else if isDotdot name then do
            let node ← s.node current
            straysLoop s₀ fuel s (← s.followMount (node.parent.getD current)) stack rest grants strayed
          else do
            let node ← s.node current
            match ← s.siblingWhere (fun child => child.name == name) node.children with
            | some child => straysLoop s₀ fuel s (← s.followMount child) stack rest grants strayed
            | none =>
                match ← load V S disk mode s current name rest.isEmpty stack grants with
                | .arrived s' new stack' =>
                    straysLoop s₀ fuel s' (← s'.followMount new) stack' rest grants.tail
                      (strayed || (!stack.isEmpty && (s₀.node current).isSome))
                | .leave _ _ => some false
                | .create .. | .nuke .. => some strayed

def strays (s : Tree φ ε) (path : Name) (cwd : Addr) (kmalloc : Kmalloc φ ε) : Bool :=
  kmalloc.pathcpy && kmalloc.searchStack &&
    (if path.head? = some slash then
      straysLoop V S disk mode s (path.length + 1) s (V.root V.ramfs) [] path.tail kmalloc.nodes false
    else straysLoop V S disk mode s (path.length + 1) s cwd [] path kmalloc.nodes false) == some true

end

section
variable {V : Volumes φ} {S : Store σ φ ε} {disk : σ} {mode : FileMode} {s₀ s : Tree φ ε} {p current cwd : Addr}
variable {name path : Name} {stack : List Addr} {grants : List (Grant φ ε)} {walk : Walk φ ε} {isLast strayed : Bool} {fuel : Nat}

/-- What the walk leaves for the end of the function. -/
def Walk.Ends (s₀ : Tree φ ε) (mode : FileMode) (strayed : Bool) : Walk φ ε → Prop
  | .arrived s _ stack => s₀.Searching s stack strayed
  | .create s _ _ stack _ => doCreateNode mode ∧ s₀.Stopped strayed s stack
  | .nuke s _ stack => s₀.Stopped strayed s stack
  | .leave s _ => s.WellFormed ∧ strayed = false

theorem findLoop_parent {parentNode retNode node : Node φ ε} {lastErr err : FsErr} {entries : List (Entry ε)}
    (found : findLoop V p parentNode name lastErr retNode entries = (err, node)) :
    node.parent = retNode.parent ∨ node.parent = some p := by
  induction entries generalizing retNode with
  | nil =>
      cases found
      exact .inl rfl
  | cons entry entries ih =>
      rw [findLoop] at found
      split_ifs at found
      · cases found
        exact .inr rfl
      · rcases ih found with same | up
        · exact .inr same
        · exact .inr up

theorem nodeFind_parent {parentNode retNode node : Node φ ε} {err : FsErr} (alone : retNode.parent = none)
    (found : nodeFind V S disk p parentNode name retNode = (err, node)) : node.parent = none ∨ node.parent = some p := by
  rw [nodeFind] at found
  split_ifs at found
  · rcases findLoop_parent found with same | up
    · exact .inl (same.trans alone)
    · exact .inr up
  · cases found
    exact .inl alone

theorem load_stops (searching : s₀.Searching s stack strayed) (fresh : FreshAnswers s.Free grants)
    (done : load V S disk mode s p name isLast stack grants = some walk) (stops : ∀ s' new stack', walk ≠ .arrived s' new stack') :
    (∃ err, walk = .leave s err) ∨ walk.Ends s₀ mode strayed := by
  rw [load] at done
  by_cases deep : stack.length ≥ maxAllocation
  · rw [if_pos deep] at done
    cases done
    exact .inl ⟨_, rfl⟩
  rw [if_neg deep] at done
  refine .inr ?_
  cases answer : grants.head?.join with
  | none =>
      rw [answer] at done
      cases done
      exact .linked searching
  | some found =>
      obtain ⟨new, stale⟩ := found
      obtain ⟨rest, rfl⟩ := exists_cons_of_head answer
      have free : s.node new = none := fresh.head.1.1
      simp only [answer, Option.bind_eq_bind, Option.bind_eq_some_iff] at done
      obtain ⟨parentNode, hereP, done⟩ := done
      rcases found : nodeFind V S disk p parentNode name { stale with parent := none } with ⟨err, node⟩
      have parents := nodeFind_parent rfl found
      simp only [found] at done
      have stopped : s₀.Stopped strayed (s.put new node) (stack ++ [new]) := by
        refine .unlinked searching free fun q up => ?_
        rcases parents with top | below
        · rw [top] at up
          cases up
        · obtain rfl : p = q := Option.some.inj (below.symm.trans up)
          rw [hereP]
          rfl
      split_ifs at done with missing creates
      · cases done
        exact ⟨creates, stopped⟩
      iterate 3
        · cases done
          exact stopped
      · obtain ⟨s', -, done⟩ := Option.bind_eq_some_iff.mp done
        cases done
        exact absurd rfl (stops _ _ _)

theorem load_searching {s' : Tree φ ε} {new : Addr} {stack' : List Addr} (searching : s₀.Searching s stack strayed)
    (wellFormed : s₀.WellFormed) (fresh : FreshAnswers s.Free grants)
    (done : load V S disk mode s p name isLast stack grants = some (.arrived s' new stack')) :
    s₀.Searching s' stack' (strayed || (!stack.isEmpty && (s₀.node p).isSome)) ∧ FreshAnswers s'.Free grants.tail := by
  obtain ⟨new, stale, rest, parentNode, rfl, hereP, ⟨leftover, wrong⟩ | ⟨s₁, base, entry, same, -, -, appended⟩⟩ :=
    load_cases done rfl
  · cases wrong
  · cases same
    obtain ⟨payloads, semaphores⟩ := appendChild_keeps appended
    exact ⟨searching.load wellFormed fresh.head.1.1 (by rw [hereP]; rfl) rfl rfl rfl appended,
      (load_keeps fresh payloads semaphores).2⟩

theorem walkLoop_ends (searching : s₀.Searching s stack strayed) (wellFormed : s₀.WellFormed)
    (fresh : FreshAnswers s.Free grants) (done : walkLoop V S disk mode fuel s current stack path grants = some walk) :
    ∃ strayed', straysLoop V S disk mode s₀ fuel s current stack path grants strayed = some strayed' ∧
      walk.Ends s₀ mode strayed' := by
  induction fuel generalizing s current stack path grants strayed with
  | zero => cases done
  | succ fuel ih =>
      rw [walkLoop] at done
      rw [straysLoop]
      cases token : strtok path with
      | none =>
          rw [token] at done
          cases done
          exact ⟨strayed, rfl, searching⟩
      | some found =>
          obtain ⟨name, rest⟩ := found
          simp only [token] at done
          dsimp only
          split_ifs at done ⊢ with dot dotdot
          · obtain ⟨b, followed, done⟩ := Option.bind_eq_some_iff.mp done
            rw [followed]
            exact ih searching fresh done
          · simp only [Option.bind_eq_bind, Option.bind_eq_some_iff] at done
            obtain ⟨node, here, b, followed, done⟩ := done
            simp only [here, followed, Option.bind_eq_bind, Option.bind_some]
            exact ih searching fresh done
          · simp only [Option.bind_eq_bind, Option.bind_eq_some_iff] at done
            obtain ⟨node, here, child, searched, done⟩ := done
            simp only [here, searched, Option.bind_eq_bind, Option.bind_some]
            cases child with
            | some a =>
                obtain ⟨b, followed, done⟩ := Option.bind_eq_some_iff.mp done
                simp only [followed, Option.bind_some]
                exact ih searching fresh done
            | none =>
                obtain ⟨walk', loaded, done⟩ := Option.bind_eq_some_iff.mp done
                simp only [loaded, Option.bind_some]
                cases walk' with
                | arrived s' new stack' =>
                    obtain ⟨b, followed, done⟩ := Option.bind_eq_some_iff.mp done
                    obtain ⟨searching', fresh'⟩ := load_searching searching wellFormed fresh loaded
                    simp only [followed, Option.bind_some]
                    exact ih searching' fresh' done
                | create | nuke =>
                    cases done
                    rcases load_stops searching fresh loaded (by simp) with ⟨err, wrong⟩ | ends
                    · cases wrong
                    · exact ⟨strayed, rfl, ends⟩
                | leave =>
                    cases done
                    rcases load_stops searching fresh loaded (by simp) with ⟨err, same⟩ | ends
                    · cases same
                      exact ⟨false, rfl, searching.wellFormed, rfl⟩
                    · exact ⟨false, rfl, ends.1, rfl⟩

/-! ## The whole function -/

variable {r : Found σ φ ε} {err : FsErr} {createFlags : BitVec 32} {kmalloc : Kmalloc φ ε}

theorem failLookup_wellFormed (stopped : s₀.Stopped strayed s stack) (wellFormed : s₀.WellFormed)
    (done : failLookup disk s err stack = some r) : r.tree.WellFormed ↔ strayed = false := by
  obtain ⟨s', nuked, done⟩ := Option.bind_eq_some_iff.mp done
  cases done
  cases strayed with
  | false =>
      rw [stopped.restored wellFormed nuked]
      exact iff_of_true wellFormed rfl
  | true => exact iff_of_false (stopped.dangles wellFormed nuked) Bool.noConfusion

theorem finishLookup_wellFormed (searching : s₀.Searching s stack strayed) (wellFormed : s₀.WellFormed)
    (done : finishLookup disk mode s current stack = some r) (failed : r.err ≠ .success) :
    r.tree.WellFormed ↔ strayed = false := by
  obtain ⟨node, -, done⟩ := Option.bind_eq_some_iff.mp done
  split_ifs at done
  · exact failLookup_wellFormed (.linked searching) wellFormed done
  · cases done
    exact absurd rfl failed

theorem createLookup_wellFormed [DecidableEq φ] (creates : doCreateNode mode) (stopped : s₀.Stopped strayed s stack)
    (wellFormed : s₀.WellFormed) (done : createLookup V S disk mode createFlags s p name stack grants = some r)
    (failed : r.err ≠ .success) : r.tree.WellFormed ↔ strayed = false := by
  rw [createLookup] at done
  cases answer : grants.head?.join with
  | none =>
      rw [answer] at done
      exact failLookup_wellFormed stopped wellFormed done
  | some found =>
      obtain ⟨new, stale⟩ := found
      simp only [answer, Option.bind_eq_bind, Option.bind_eq_some_iff] at done
      obtain ⟨parentNode, -, done⟩ := done
      generalize createEntry V S disk parentNode name createFlags = made at done
      obtain ⟨err | entry, disk'⟩ := made
      · exact failLookup_wellFormed stopped wellFormed done
      · obtain ⟨s', -, done⟩ := Option.bind_eq_some_iff.mp done
        obtain ⟨node, -, done⟩ := Option.bind_eq_some_iff.mp done
        -- a search for a directory creates nothing
        have notOnlydir : ¬ mode.has fileOpenOnlydir := by
          rw [doCreateNode, Bool.and_eq_true] at creates
          simpa using creates.2
        rw [if_neg fun onlydir => notOnlydir onlydir.1] at done
        cases done
        exact absurd rfl failed

theorem walkPath_ends (wellFormed : s.WellFormed) (fresh : FreshAnswers s.Free kmalloc.nodes) (copied : kmalloc.pathcpy)
    (stacked : kmalloc.searchStack) (walked : walkPath V S disk mode s path cwd kmalloc.nodes = some walk) :
    ∃ strayed, strays V S disk mode s path cwd kmalloc = strayed ∧ walk.Ends s mode strayed := by
  rw [walkPath] at walked
  rw [strays, copied, stacked, Bool.true_and, Bool.true_and]
  split_ifs at walked ⊢
  all_goals
    obtain ⟨strayed, loop, ends⟩ := walkLoop_ends wellFormed.searching wellFormed fresh walked
    refine ⟨strayed, ?_, ends⟩
    rw [loop]
    cases strayed <;> rfl

/-- A lookup that fails leaves a well-formed tree unless it strayed: unless it came out of what it had loaded, by a
`..`, and loaded another node in a directory that was there before. -/
theorem failed_lookup_wellFormed [DecidableEq φ] (wellFormed : s.WellFormed) (fresh : FreshAnswers s.Free kmalloc.nodes)
    (done : vfsFindAndCreateNode V S disk s path cwd mode createFlags kmalloc = some r) (failed : r.err ≠ .success) :
    (r.tree.WellFormed ∧ r.tree.NoDangling) ↔ strays V S disk mode s path cwd kmalloc = false := by
  have whole : (r.tree.WellFormed ∧ r.tree.NoDangling) ↔ r.tree.WellFormed :=
    ⟨And.left, fun wellFormed => ⟨wellFormed, wellFormed.noDangling⟩⟩
  rw [whole]
  rw [vfsFindAndCreateNode] at done
  split_ifs at done with refused
  · cases done
    refine iff_of_true wellFormed ?_
    rw [strays]
    rcases refused with refused | refused <;> simp [refused]
  · rw [not_or, not_not, not_not] at refused
    obtain ⟨walk, walked, done⟩ := Option.bind_eq_some_iff.mp done
    obtain ⟨strayed, same, ends⟩ := walkPath_ends wellFormed fresh refused.1 refused.2 walked
    rw [same]
    cases walk with
    | arrived s' current stack => exact finishLookup_wellFormed ends wellFormed done failed
    | create s' parent name stack grants => exact createLookup_wellFormed ends.1 ends.2 wellFormed done failed
    | nuke s' err stack => exact failLookup_wellFormed ends wellFormed done
    | leave s' err =>
        cases done
        exact iff_of_true ends.1 ends.2

end

/-! ## Two directories in a root directory -/

section TwoDirectories

-- the entries `a` and `b` of the root directory, which are empty directories
def twoDirectories : Store Unit Unit Bool where
  iterate _ _ isRoot :=
    ⟨if isRoot then [97, 98].map fun c => ⟨[c], fsNodeTypeDirectory, none, false⟩ else [], .eof, FsErr.eof_ne_success⟩
  nodeCreate _ _ _ _ _ := (.error .notSupported, ())
  mkdir _ _ _ _ _ := (.error .notSupported, ())
  createSpecialNode _ _ _ _ _ := (.error .notSupported, ())

def rootVolume : Volumes Unit := ⟨fun _ => 1, (), fun _ => false⟩

def rootNode : Node Unit Bool := ⟨[], (), none, none, none, fsNodeTypeDirectory, none, 1, none, true⟩

def rootOnly : Tree Unit Bool := Tree.put ⟨fun _ => none, fun _ => none⟩ 1 rootNode

theorem rootOnly_wellFormed : rootOnly.WellFormed := by
  have bare : ∀ a node, rootOnly.node a = some node → node = rootNode := by
    intro a node here
    by_cases same : a = 1
    · subst same
      rw [rootOnly, Tree.put_self] at here
      exact (Option.some.inj here).symm
    · rw [rootOnly, Tree.put_of_ne same] at here
      cases here
  have unlinked : ∀ (f : Node Unit Bool → Option Addr), f rootNode = none → ∀ a, (rootOnly.node a).bind f = none := by
    intro f none a
    cases here : rootOnly.node a with
    | none => rfl
    | some node => rw [Option.bind_some, bare a node here, none]
  refine ⟨⟨fun _ => [], fun _ => 0, ⟨fun a _ => unlinked _ rfl a, fun _ _ _ listed => ?_, fun a _ p up => ?_⟩, fun _ there => there⟩,
    fun a _ => unlinked _ rfl a⟩
  · cases listed
  · rw [Tree.parent, unlinked _ rfl] at up
    cases up

def threeBlocks : Kmalloc Unit Bool := ⟨true, true, [2, 3, 4].map fun a => some (a, rootNode)⟩

theorem threeBlocks_fresh : FreshAnswers rootOnly.Free threeBlocks.nodes := by
  refine ⟨fun a member => ?_, by decide⟩
  have three : a ∈ ([2, 3, 4] : List Addr) := member
  simp only [List.mem_cons, List.not_mem_nil, or_false] at three
  rcases three with rfl | rfl | rfl <;> exact ⟨rfl, rfl⟩

-- `open(path, O_RDONLY)` from the root
def openPath (path : Name) : Option (Found Unit Unit Bool) :=
  vfsFindAndCreateNode rootVolume twoDirectories () rootOnly path 1 fileOpenRead 0#32 threeBlocks

/-- `/a/c`: nothing is left of `a`. -/
theorem failed_lookup_wellFormed_below :
    ∃ r, openPath [47, 97, 47, 99] = some r ∧ r.err = .targetNotFound ∧ r.tree.WellFormed ∧ r.tree.NoDangling := by
  have ends : (openPath [47, 97, 47, 99]).map Found.err = some .targetNotFound := by decide
  obtain ⟨r, done, err⟩ := Option.map_eq_some_iff.mp ends
  exact ⟨r, done, err, (failed_lookup_wellFormed rootOnly_wellFormed threeBlocks_fresh done (by rw [err]; decide)).mpr
    (by decide)⟩

/-- `/a/../b/c`: the root directory still has `b` for its first child, which is freed. -/
theorem failed_lookup_dangles :
    ¬ ∀ (s : Tree Unit Bool) (path : Name) (cwd : Addr) (mode : FileMode) (createFlags : BitVec 32) (kmalloc : Kmalloc Unit Bool)
        (r : Found Unit Unit Bool), s.WellFormed → FreshAnswers s.Free kmalloc.nodes →
        vfsFindAndCreateNode rootVolume twoDirectories () s path cwd mode createFlags kmalloc = some r → r.err ≠ .success →
        r.tree.WellFormed ∧ r.tree.NoDangling := by
  intro always
  have ends : (openPath [47, 97, 47, 46, 46, 47, 98, 47, 99]).map (fun r => (r.err, (r.tree.node 1).map Node.children,
      (r.tree.node 3).isSome)) = some (.targetNotFound, some (some 3), false) := by decide
  obtain ⟨r, done, shape⟩ := Option.map_eq_some_iff.mp ends
  simp only [Prod.mk.injEq] at shape
  obtain ⟨err, children, freed⟩ := shape
  obtain ⟨root, here, first⟩ := Option.map_eq_some_iff.mp children
  obtain ⟨-, noDangling⟩ := always _ _ _ _ _ _ r rootOnly_wellFormed threeBlocks_fresh done (by rw [err]; decide)
  have there := noDangling 1 root 3 here (.inl first)
  rw [freed] at there
  cases there

end TwoDirectories
end Kerosene.Vfs
