import Mathlib.Logic.Relation

/-!
# Machines that run on inputs

A state machine takes one input at a time. `step` answers `none` when the step faults, and `Legal`
says which inputs the environment may give in a state. A run is a sequence of legal steps.
-/

namespace Kerosene.Lib

structure Machine (σ ι : Type*) where
  Legal : σ → ι → Prop
  step : σ → ι → Option σ

namespace Machine
variable {σ ι : Type*} {M : Machine σ ι}

def Next (M : Machine σ ι) (before after : σ) : Prop :=
  ∃ input, M.Legal before input ∧ M.step before input = some after

def Reaches (M : Machine σ ι) : σ → σ → Prop :=
  Relation.ReflTransGen M.Next

theorem Reaches.refl (s : σ) : M.Reaches s s := Relation.ReflTransGen.refl

theorem Reaches.snoc {s t u : σ} {i : ι} (run : M.Reaches s t) (legal : M.Legal t i)
    (step : M.step t i = some u) : M.Reaches s u :=
  Relation.ReflTransGen.tail run ⟨i, legal, step⟩

/-- What holds at the start and is kept by every legal step holds in every state reached. -/
theorem Reaches.invariant {I : σ → Prop}
    (keeps : ∀ s input t, I s → M.Legal s input → M.step s input = some t → I t)
    {s t : σ} (run : M.Reaches s t) (start : I s) : I t := by
  induction run with
  | refl => exact start
  | tail _ next ih =>
      obtain ⟨input, legal, step⟩ := next
      exact keeps _ input _ ih legal step

theorem Reaches.mono {N : Machine σ ι} (steps : N.step = M.step)
    (legal : ∀ s input, M.Legal s input → N.Legal s input) {s t : σ} (run : M.Reaches s t) :
    N.Reaches s t := by
  refine Relation.ReflTransGen.mono ?_ s t run
  rintro s t ⟨input, allowed, step⟩
  exact ⟨input, legal s input allowed, by rw [steps, step]⟩

theorem Reaches.foldlM {inputs : List ι} {s t : σ} (legal : ∀ s, ∀ input ∈ inputs, M.Legal s input)
    (run : inputs.foldlM M.step s = some t) : M.Reaches s t := by
  induction inputs generalizing s with
  | nil =>
      cases run
      exact .refl _
  | cons input inputs ih =>
      rw [List.foldlM_cons] at run
      obtain ⟨next, step, run⟩ := Option.bind_eq_some_iff.mp run
      have rest := ih (fun s input member => legal s input (List.mem_cons_of_mem _ member)) run
      exact Relation.ReflTransGen.head ⟨input, legal s input List.mem_cons_self, step⟩ rest

/-- A run together with the inputs it was given. -/
inductive Runs (M : Machine σ ι) (start : σ) : List ι → σ → Prop
  | start : M.Runs start [] start
  | snoc {inputs : List ι} {s t : σ} {input : ι} : M.Runs start inputs s → M.Legal s input →
      M.step s input = some t → M.Runs start (inputs ++ [input]) t

end Machine
end Kerosene.Lib
