import Mathlib.Data.Set.Finite.Basic
import Mathlib.Data.Fintype.Order
import Mathlib.Logic.Relation
import Mathlib.Order.WellFounded

/-!
# Walks along a partial function

`next` gives the successor of an element, if it has one.
-/

namespace Kerosene.Lib
variable {α : Type*} {next next' : α → Option α} {a b : α}

/-- From `a` the successors come to an end. -/
inductive Ends (next : α → Option α) : α → Prop
  | last {a : α} (stop : next a = none) : Ends next a
  | link {a b : α} (step : next a = some b) (rest : Ends next b) : Ends next a

/-- The elements that a walk from `a` meets. -/
def Visits (next : α → Option α) : α → α → Prop := Relation.ReflTransGen fun a b => next a = some b

def Returns (next : α → Option α) (a : α) : Prop := Relation.TransGen (fun a b => next a = some b) a a

def NoCycle (next : α → Option α) (a : α) : Prop := ∀ b, Visits next a b → ¬ Returns next b

theorem Visits.refl : Visits next a a := Relation.ReflTransGen.refl

theorem Visits.head {c : α} (step : next a = some b) (rest : Visits next b c) : Visits next a c :=
  Relation.ReflTransGen.head step rest

theorem Visits.cases {c : α} (visits : Visits next a c) : c = a ∨ ∃ b, next a = some b ∧ Visits next b c := by
  rcases Relation.ReflTransGen.cases_head visits with rfl | ⟨b, step, rest⟩
  · exact .inl rfl
  · exact .inr ⟨b, step, rest⟩

theorem Visits.of_step {c : α} (step : next a = some b) (visits : Visits next a c) : c = a ∨ Visits next b c := by
  rcases visits.cases with rfl | ⟨b', step', rest⟩
  · exact .inl rfl
  · cases step.symm.trans step'
    exact .inr rest

theorem Returns.visits (returns : Returns next a) : ∃ b, next a = some b ∧ Visits next b a :=
  Relation.TransGen.head'_iff.mp returns

theorem Returns.behind (returns : Returns next a) (step : next a = some b) : Returns next b := by
  obtain ⟨b', step', back⟩ := returns.visits
  cases step.symm.trans step'
  exact Relation.TransGen.tail' back step

theorem Ends.rest (ends : Ends next a) (step : next a = some b) : Ends next b := by
  cases ends with
  | last stop =>
      rw [stop] at step
      cases step
  | link step' rest =>
      cases step'.symm.trans step
      exact rest

theorem Ends.visited (ends : Ends next a) (visits : Visits next a b) : Ends next b := by
  induction visits with
  | refl => exact ends
  | tail _ step ih => exact ih.rest step

theorem Ends.congr (ends : Ends next a) (same : ∀ b, Visits next a b → next' b = next b) : Ends next' a := by
  induction ends with
  | last stop => exact .last ((same _ .refl).trans stop)
  | link step _ ih => exact .link ((same _ .refl).trans step) (ih fun c visits => same c (visits.head step))

theorem Ends.noCycle (ends : Ends next a) : NoCycle next a := by
  induction ends with
  | last stop =>
      intro b visits returns
      rcases visits.cases with rfl | ⟨_, step, _⟩
      · obtain ⟨_, step, _⟩ := returns.visits
        rw [stop] at step
        cases step
      · rw [stop] at step
        cases step
  | link step _ ih =>
      intro c visits returns
      rcases visits.of_step step with rfl | later
      · exact ih _ .refl (returns.behind step)
      · exact ih c later returns

theorem NoCycle.ends (finite : {b | ∃ a, next a = some b}.Finite) (noCycle : NoCycle next a) : Ends next a := by
  have visited : {b | Visits next a b}.Finite := by
    refine (finite.insert a).subset fun b visits => ?_
    rcases Relation.ReflTransGen.cases_tail visits with rfl | ⟨c, _, step⟩
    · exact Set.mem_insert b _
    · exact Set.mem_insert_of_mem a ⟨c, step⟩
  have := visited.to_subtype
  let after : {b | Visits next a b} → {b | Visits next a b} → Prop :=
    fun x y => Relation.TransGen (fun a b => next a = some b) y.1 x.1
  have trans : IsTrans _ after := ⟨fun _ _ _ first second => second.trans first⟩
  have irrefl : Std.Irrefl after := ⟨fun x returns => noCycle x.1 x.2 returns⟩
  have wf : WellFounded after := Finite.wellFounded_of_trans_of_irrefl after
  have all : ∀ x : {b | Visits next a b}, Ends next x.1 := by
    intro x
    induction x using wf.induction with
    | _ x ih =>
        cases step : next x.1 with
        | none => exact .last step
        | some b => exact .link step (ih ⟨b, x.2.tail step⟩ (.single step))
  exact all ⟨a, .refl⟩

theorem ends_iff_noCycle (finite : {b | ∃ a, next a = some b}.Finite) : Ends next a ↔ NoCycle next a :=
  ⟨Ends.noCycle, NoCycle.ends finite⟩

end Kerosene.Lib
