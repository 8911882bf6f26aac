import Kerosene.Lib.Chain
import Mathlib.Data.Set.Insert
import Mathlib.Logic.Function.Basic
import Mathlib.Logic.Relation

/-!
# Trees by first child and next sibling

A cell has a link to its first child, one to its next sibling and one to its parent. `Forest` says
that the links of the cells in `member` agree: `kids` lists the children of each cell in order, and
`depth` grows from parent to child, so that there is no cycle.
-/

namespace Kerosene.Lib
open Relation
variable {α : Type*} {first next parent first' next' parent' : α → Option α}

/-- `b` is met on the list of children of `a`. -/
def IsChild (first next : α → Option α) (a b : α) : Prop := ∃ l, Seg next (first a) l none ∧ b ∈ l

structure Forest (first next parent : α → Option α) (member : Set α) (kids : α → List α) (depth : α → Nat) : Prop where
  list : ∀ a ∈ member, Seg next (first a) (kids a) none
  kid : ∀ a ∈ member, ∀ b ∈ kids a, b ∈ member ∧ parent b = some a ∧ depth b = depth a + 1
  up : ∀ b ∈ member, ∀ a, parent b = some a → a ∈ member ∧ b ∈ kids a

namespace Forest
variable {member : Set α} {kids : α → List α} {depth : α → Nat} {a b p : α}

section
variable (forest : Forest first next parent member kids depth)
include forest

theorem isChild_iff (inside : a ∈ member) : IsChild first next a b ↔ b ∈ kids a := by
  constructor
  · rintro ⟨l, seg, found⟩
    rwa [seg.unique (forest.list a inside)] at found
  · exact fun found => ⟨kids a, forest.list a inside, found⟩

theorem isChild_member (inside : a ∈ member) (child : IsChild first next a b) :
    b ∈ member ∧ parent b = some a ∧ depth b = depth a + 1 :=
  forest.kid a inside b ((forest.isChild_iff inside).mp child)

theorem descendant_member (inside : a ∈ member) (below : ReflTransGen (IsChild first next) a b) : b ∈ member := by
  induction below with
  | refl => exact inside
  | tail _ child ih => exact (forest.isChild_member ih child).1

theorem acyclic (inside : a ∈ member) : ¬ TransGen (IsChild first next) a a := by
  have deeper : ∀ b, TransGen (IsChild first next) a b → b ∈ member ∧ depth a < depth b := by
    intro b below
    induction below with
    | single child =>
        obtain ⟨member, -, deep⟩ := forest.isChild_member inside child
        exact ⟨member, by omega⟩
    | tail _ child ih =>
        obtain ⟨member, -, deep⟩ := forest.isChild_member ih.1 child
        exact ⟨member, by omega⟩
  exact fun loop => (deeper a loop).2.ne rfl

theorem exists_root (inside : a ∈ member) :
    ∃ r ∈ member, parent r = none ∧ ReflTransGen (IsChild first next) r a := by
  generalize deep : depth a = d
  induction d using Nat.strong_induction_on generalizing a with
  | _ d ih =>
      cases above : parent a with
      | none => exact ⟨a, inside, above, .refl⟩
      | some p =>
          obtain ⟨insideP, listed⟩ := forest.up a inside p above
          have deeper := (forest.kid p insideP a listed).2.2
          obtain ⟨r, insideR, top, below⟩ := ih (depth p) (by omega) insideP rfl
          exact ⟨r, insideR, top, below.tail ((forest.isChild_iff insideP).mpr listed)⟩

theorem kids_disjoint (inside : a ∈ member) (insideP : p ∈ member) (other : a ≠ p) (listed : b ∈ kids a) : b ∉ kids p := by
  intro again
  have one := (forest.kid a inside b listed).2.1
  have two := (forest.kid p insideP b again).2.1
  rw [one] at two
  exact other (Option.some.inj two)

theorem nodup (inside : a ∈ member) : (kids a).Nodup := (forest.list a inside).nodup

theorem congr (firsts : ∀ a ∈ member, first' a = first a) (nexts : ∀ a ∈ member, next' a = next a)
    (parents : ∀ a ∈ member, parent' a = parent a) : Forest first' next' parent' member kids depth := by
  refine ⟨fun a inside => ?_, fun a inside b listed => ?_, fun b inside a above => ?_⟩
  · rw [firsts a inside]
    exact (forest.list a inside).congr fun b listed => nexts b (forest.kid a inside b listed).1
  · have kid := forest.kid a inside b listed
    rwa [← parents b kid.1] at kid
  · rw [parents b inside] at above
    exact forest.up b inside a above

theorem kid_stays {gone : Set α} (above : ∀ b ∈ member, b ∈ gone → b ≠ a → ∃ q ∈ gone, parent b = some q)
    (inside : b ∈ member) (stays : b ∉ gone) {c : α} (listed : c ∈ kids b) (other : c ≠ a) : c ∉ gone := by
  intro isGone
  obtain ⟨insideC, up, -⟩ := forest.kid b inside c listed
  obtain ⟨q, goneQ, parentC⟩ := above c insideC isGone other
  rw [up] at parentC
  exact stays (Option.some.inj parentC ▸ goneQ)

variable [DecidableEq α]

theorem addLeaf (inside : p ∈ member) (new : a ∉ member)
    (leaf : first' a = none ∧ next' a = none ∧ parent' a = some p)
    (parents : ∀ b ∈ member, parent' b = parent b) (firsts : ∀ b ∈ member, b ≠ p → first' b = first b)
    (nexts : ∀ b ∈ member, (kids p).getLast? ≠ some b → next' b = next b)
    (linked : (kids p = [] ∧ first' p = some a) ∨
      ∃ c, (kids p).getLast? = some c ∧ next' c = some a ∧ first' p = first p) :
    Forest first' next' parent' (insert a member) (Function.update (Function.update kids a []) p (kids p ++ [a]))
      (Function.update depth a (depth p + 1)) := by
  have notP : p ≠ a := by rintro rfl; exact new inside
  have old : ∀ b ∈ member, b ≠ a := by rintro b member rfl; exact new member
  have kidsA : Function.update (Function.update kids a []) p (kids p ++ [a]) a = [] := by
    rw [Function.update_of_ne notP.symm, Function.update_self]
  have kidsP : Function.update (Function.update kids a []) p (kids p ++ [a]) p = kids p ++ [a] := Function.update_self ..
  have kidsOther : ∀ b ∈ member, b ≠ p → Function.update (Function.update kids a []) p (kids p ++ [a]) b = kids b :=
    fun b inside other => by rw [Function.update_of_ne other, Function.update_of_ne (old b inside)]
  refine ⟨fun b inside' => ?_, fun b inside' c listed => ?_, fun b inside' q above => ?_⟩
  · rcases Set.mem_insert_iff.mp inside' with rfl | insideB
    · rw [kidsA, leaf.1]
      rfl
    · by_cases same : b = p
      · subst same
        rw [kidsP]
        rcases linked with ⟨empty, link⟩ | ⟨c, last, link, kept⟩
        · rw [empty, link]
          exact ⟨rfl, leaf.2.1⟩
        · obtain ⟨left, split⟩ : ∃ left, kids b = left ++ [c] := ⟨_, (List.dropLast_append_getLast? c last).symm⟩
          have list := forest.list b insideB
          have nodup := forest.nodup insideB
          rw [split] at list nodup
          rw [kept, split]
          refine seg_append.mpr ⟨some a, list.relink (fun e listed => nexts e ?_ ?_) link, rfl, leaf.2.1⟩
          · exact (forest.kid b insideB e (by rw [split]; simp [listed])).1
          · rw [last]
            rintro ⟨rfl⟩
            exact (List.nodup_append'.mp nodup).2.2 listed List.mem_cons_self
      · rw [kidsOther b insideB same, firsts b insideB same]
        refine (forest.list b insideB).congr fun e listed => nexts e (forest.kid b insideB e listed).1 fun last => ?_
        exact forest.kids_disjoint insideB inside same listed (List.mem_of_mem_getLast? last)
  · rcases Set.mem_insert_iff.mp inside' with rfl | insideB
    · rw [kidsA] at listed
      cases listed
    · have known : ∀ q ∈ member, c ∈ kids q → c ∈ insert a member ∧ parent' c = some q ∧
          Function.update depth a (depth p + 1) c = Function.update depth a (depth p + 1) q + 1 := by
        intro q insideQ listed
        obtain ⟨insideC, above, deep⟩ := forest.kid q insideQ c listed
        rw [Function.update_of_ne (old c insideC), Function.update_of_ne (old q insideQ), parents c insideC]
        exact ⟨Set.mem_insert_of_mem a insideC, above, deep⟩
      by_cases same : b = p
      · subst same
        rw [kidsP] at listed
        rcases List.mem_append.mp listed with before | isNew
        · exact known b insideB before
        · obtain rfl : c = a := List.mem_singleton.mp isNew
          rw [Function.update_self, Function.update_of_ne notP]
          exact ⟨Set.mem_insert c member, leaf.2.2, rfl⟩
      · rw [kidsOther b insideB same] at listed
        exact known b insideB listed
  · rcases Set.mem_insert_iff.mp inside' with rfl | insideB
    · rw [leaf.2.2] at above
      obtain rfl : p = q := Option.some.inj above
      rw [kidsP]
      exact ⟨Set.mem_insert_of_mem b inside, by simp⟩
    · rw [parents b insideB] at above
      obtain ⟨insideQ, listed⟩ := forest.up b insideB q above
      refine ⟨Set.mem_insert_of_mem a insideQ, ?_⟩
      by_cases same : q = p
      · subst same
        rw [kidsP]
        exact List.mem_append_left _ listed
      · rw [kidsOther q insideQ same]
        exact listed

theorem removeBranch {gone : Set α} {left right : List α} (inside : a ∈ member) (isGone : a ∈ gone)
    (below : ∀ b ∈ member, b ∈ gone → ∀ c ∈ kids b, c ∈ gone)
    (above : ∀ b ∈ member, b ∈ gone → b ≠ a → ∃ q ∈ gone, parent b = some q)
    (parentA : parent a = some p) (stays : p ∉ gone) (split : kids p = left ++ a :: right)
    (parents : ∀ b ∈ member, b ∉ gone → parent' b = parent b)
    (firsts : ∀ b ∈ member, b ∉ gone → b ≠ p → first' b = first b)
    (nexts : ∀ b ∈ member, b ∉ gone → left.getLast? ≠ some b → next' b = next b)
    (linked : (left = [] ∧ first' p = next a) ∨
      ∃ c, left.getLast? = some c ∧ next' c = next a ∧ first' p = first p) :
    Forest first' next' parent' (member \ gone) (Function.update kids p (left ++ right)) depth := by
  obtain ⟨insideP, listedA⟩ := forest.up a inside p parentA
  have nodup := forest.nodup insideP
  rw [split] at nodup
  have apart := List.nodup_append'.mp nodup
  have notRight := (List.nodup_cons.mp apart.2.1).1
  have kidsOther : ∀ b, b ≠ p → Function.update kids p (left ++ right) b = kids b :=
    fun b other => Function.update_of_ne other ..
  have onlyP : ∀ b ∈ member, b ≠ p → a ∉ kids b := fun b insideB other listed =>
    forest.kids_disjoint insideB insideP other listed listedA
  have still : ∀ b ∈ left ++ right, b ∈ kids p ∧ b ≠ a := by
    intro b listed
    rw [split]
    refine ⟨by simp at listed ⊢; tauto, ?_⟩
    rintro rfl
    rcases List.mem_append.mp listed with before | after
    · exact apart.2.2 before List.mem_cons_self
    · exact notRight after
  refine ⟨fun b inside' => ?_, fun b inside' c listed => ?_, fun b inside' q up => ?_⟩
  · obtain ⟨insideB, notGone⟩ := inside'
    by_cases same : b = p
    · subst same
      rw [Function.update_self]
      have list := forest.list b insideB
      rw [split] at list
      obtain ⟨before, after⟩ := list.split
      have stay : ∀ e ∈ left ++ right, e ∈ member ∧ e ∉ gone := fun e listed =>
        ⟨(forest.kid b insideB e (still e listed).1).1, forest.kid_stays above insideB stays (still e listed).1 (still e listed).2⟩
      have rest : Seg next' (next a) right none := by
        refine after.congr fun e listed => ?_
        obtain ⟨insideE, notGoneE⟩ := stay e (List.mem_append_right _ listed)
        refine nexts e insideE notGoneE fun last => ?_
        exact apart.2.2 (List.mem_of_mem_getLast? last) (List.mem_cons_of_mem a listed)
      rcases linked with ⟨empty, link⟩ | ⟨c, last, link, kept⟩
      · rw [empty, link]
        exact rest
      · obtain ⟨init, rfl⟩ : ∃ init, left = init ++ [c] := ⟨_, (List.dropLast_append_getLast? c last).symm⟩
        obtain ⟨middle, toC, _⟩ := seg_append.mp before
        rw [kept]
        refine seg_append.mpr ⟨next a, toC.relink (fun e listed => ?_) link, rest⟩
        obtain ⟨insideE, notGoneE⟩ := stay e (by simp [listed])
        refine nexts e insideE notGoneE ?_
        rw [last]
        rintro ⟨rfl⟩
        exact (List.nodup_append'.mp apart.1).2.2 listed List.mem_cons_self
    · rw [kidsOther b same, firsts b insideB notGone same]
      refine (forest.list b insideB).congr fun e listed => ?_
      have other : e ≠ a := by rintro rfl; exact onlyP b insideB same listed
      refine nexts e (forest.kid b insideB e listed).1 (forest.kid_stays above insideB notGone listed other) fun last => ?_
      refine forest.kids_disjoint insideB insideP same listed ?_
      rw [split]
      exact List.mem_append_left _ (List.mem_of_mem_getLast? last)
  · obtain ⟨insideB, notGone⟩ := inside'
    have known : c ∈ kids b ∧ c ≠ a := by
      by_cases same : b = p
      · subst same
        rw [Function.update_self] at listed
        exact still c listed
      · rw [kidsOther b same] at listed
        exact ⟨listed, by rintro rfl; exact onlyP b insideB same listed⟩
    obtain ⟨insideC, up, deep⟩ := forest.kid b insideB c known.1
    have notGoneC := forest.kid_stays above insideB notGone known.1 known.2
    exact ⟨⟨insideC, notGoneC⟩, by rw [parents c insideC notGoneC]; exact up, deep⟩
  · obtain ⟨insideB, notGone⟩ := inside'
    rw [parents b insideB notGone] at up
    obtain ⟨insideQ, listed⟩ := forest.up b insideB q up
    refine ⟨⟨insideQ, fun goneQ => notGone (below q insideQ goneQ b listed)⟩, ?_⟩
    by_cases same : q = p
    · subst same
      rw [Function.update_self]
      rw [split] at listed
      have : b ≠ a := by rintro rfl; exact notGone isGone
      simp at listed ⊢
      tauto
    · rw [kidsOther q same]
      exact listed

end
end Forest
end Kerosene.Lib
