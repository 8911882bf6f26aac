import Mathlib.Data.List.Basic
import Mathlib.Data.Option.Basic

/-!
# Steps that change nothing

A step that answers is silent where it leads to a state alike: no later answer tells the two apart. Silent
steps can be put into a run anywhere without a change to the other answers.
-/

namespace Kerosene.Lib
variable {σ ι ρ : Type*}

/-- The answers of a run, and where it ends; `none` when a step faults. -/
def answers (step : σ → ι → Option (ρ × σ)) : σ → List ι → Option (List ρ × σ)
  | s, [] => some ([], s)
  | s, i :: rest => do
      let (r, t) ← step s i
      let (rs, u) ← answers step t rest
      return (r :: rs, u)

/-- A run in which some inputs are put in, which are marked; only the others are answered for. -/
def otherAnswers (step : σ → ι → Option (ρ × σ)) : σ → List (Bool × ι) → Option (List ρ × σ)
  | s, [] => some ([], s)
  | s, (inserted, i) :: rest => do
      let (r, t) ← step s i
      let (rs, u) ← otherAnswers step t rest
      return (if inserted then rs else r :: rs, u)

/-- The run without what is put in. -/
def others (l : List (Bool × ι)) : List ι := (l.filter fun input => !input.1).map Prod.snd

/-- What holds of every input in the state that it is given in. -/
def Along (step : σ → ι → Option (ρ × σ)) (P : σ → Bool × ι → Prop) : σ → List (Bool × ι) → Prop
  | _, [] => True
  | s, input :: rest => P s input ∧ ∀ r t, step s input.2 = some (r, t) → Along step P t rest

theorem Along.imp {step : σ → ι → Option (ρ × σ)} {P Q : σ → Bool × ι → Prop} {s : σ} {l : List (Bool × ι)}
    (weaker : ∀ s input, P s input → Q s input) (along : Along step P s l) : Along step Q s l := by
  induction l generalizing s with
  | nil => trivial
  | cons input l ih => exact ⟨weaker s input along.1, fun r t done => ih (along.2 r t done)⟩

/-- The same answers, and states alike at the end, or a fault in both. -/
def SameAnswers (Alike : σ → σ → Prop) : Option (List ρ × σ) → Option (List ρ × σ) → Prop :=
  Option.Rel fun x y => x.1 = y.1 ∧ Alike x.2 y.2

/-- Where a step is silent, and between which states no step tells the difference. -/
structure Silence (step : σ → ι → Option (ρ × σ)) (Legal : σ → ι → Prop) (Good : σ → Prop) (Quiet : σ → ι → Prop)
    (Alike : σ → σ → Prop) : Prop where
  good : ∀ s i r t, Good s → Legal s i → step s i = some (r, t) → Good t
  quiet : ∀ s i, Good s → Quiet s i → ∃ r t, step s i = some (r, t) ∧ Alike s t
  alike : ∀ s s' i, Alike s s' → Option.Rel (fun x y => x.1 = y.1 ∧ Alike x.2 y.2) (step s i) (step s' i)
  symm : ∀ s s', Alike s s' → Alike s' s
  trans : ∀ s s' s'', Alike s s' → Alike s' s'' → Alike s s''

namespace Silence
variable {step : σ → ι → Option (ρ × σ)} {Legal : σ → ι → Prop} {Good : σ → Prop} {Quiet : σ → ι → Prop}
  {Alike : σ → σ → Prop} {s s' : σ} {l : List (Bool × ι)}

theorem insert (silence : Silence step Legal Good Quiet Alike) (good : Good s) (alike : Alike s s')
    (along : Along step (fun s input => Legal s input.2 ∧ (input.1 → Quiet s input.2)) s l) :
    SameAnswers Alike (otherAnswers step s l) (answers step s' (others l)) := by
  induction l generalizing s s' with
  | nil => exact .some ⟨rfl, alike⟩
  | cons input l ih =>
      obtain ⟨inserted, i⟩ := input
      obtain ⟨⟨legal, quiet⟩, rest⟩ := along
      cases inserted with
      | true =>
          obtain ⟨r, t, done, same⟩ := silence.quiet s i good (quiet rfl)
          have further := ih (silence.good s i r t good legal done) (silence.trans _ _ _ (silence.symm _ _ same) alike)
            (rest r t done)
          have dropped : otherAnswers step s ((true, i) :: l) = otherAnswers step t l := by
            rw [otherAnswers, done]
            change ((otherAnswers step t l).bind fun x => some (x.1, x.2)) = _
            cases otherAnswers step t l <;> rfl
          rw [dropped]
          exact further
      | false =>
          have both := silence.alike s s' i alike
          change SameAnswers Alike ((step s i).bind fun x => (otherAnswers step x.2 l).bind fun y => some (x.1 :: y.1, y.2))
            ((step s' i).bind fun x => (answers step x.2 (others l)).bind fun y => some (x.1 :: y.1, y.2))
          cases done : step s i with
          | none =>
              rw [done] at both
              cases done' : step s' i with
              | none => exact .none
              | some y =>
                  rw [done'] at both
                  cases both
          | some x =>
              rw [done] at both
              cases done' : step s' i with
              | none =>
                  rw [done'] at both
                  cases both
              | some y =>
                  rw [done'] at both
                  obtain ⟨same, ends⟩ : x.1 = y.1 ∧ Alike x.2 y.2 := by
                    cases both with
                    | some both => exact both
                  have further := ih (silence.good s i x.1 x.2 good legal done) ends (rest x.1 x.2 done)
                  rw [Option.bind_some, Option.bind_some, same]
                  cases found : otherAnswers step x.2 l with
                  | none =>
                      rw [found] at further
                      cases found' : answers step y.2 (others l) with
                      | none => exact .none
                      | some v =>
                          rw [found'] at further
                          cases further
                  | some u =>
                      rw [found] at further
                      cases found' : answers step y.2 (others l) with
                      | none =>
                          rw [found'] at further
                          cases further
                      | some v =>
                          rw [found'] at further
                          cases further with
                          | some agree => exact .some ⟨congrArg (y.1 :: ·) agree.1, agree.2⟩

end Silence
end Kerosene.Lib
