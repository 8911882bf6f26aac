import Kerosene.Lib.Machine
import Mathlib.Data.List.Basic
import Mathlib.Logic.Function.Basic

/-!
# Sections under a spinlock

Any number of threads take a lock by testing and setting a flag, and make their accesses to the shared data one at a time, in
any order of the threads. Their sections are atomic.
-/

namespace Kerosene.Lib.Spinlock
open Relation
variable {τ σ κ : Type*}

/-- Where a thread is. Inside of its section it has its own state, from the one that it began with. -/
inductive Phase (κ : Type*)
  | outside
  | trying (start : κ)
  | inside (start now : κ)

structure State (τ σ κ : Type*) where
  flag : Bool
  data : σ
  phase : τ → Phase κ

inductive Move (τ κ : Type*)
  | enter (t : τ) (start : κ)
  | access (t : τ)

/-- The accesses of a section from its first state to its last one. -/
def Whole (next : σ × κ → Option (σ × κ)) (before after : σ × κ) : Prop :=
  ReflTransGen (fun a b => next a = some b) before after ∧ next after = none

theorem Whole.unique {next : σ × κ → Option (σ × κ)} {before after after' : σ × κ} (whole : Whole next before after)
    (whole' : Whole next before after') : after = after' := by
  obtain ⟨steps, last⟩ := whole
  obtain ⟨steps', last'⟩ := whole'
  induction steps using ReflTransGen.head_induction_on with
  | refl =>
      rcases steps'.cases_head with same | ⟨b, first, -⟩
      · exact same
      · rw [last] at first
        cases first
  | head first _ ih =>
      rcases steps'.cases_head with same | ⟨b, first', rest⟩
      · rw [same, last'] at first
        cases first
      · rw [first] at first'
        cases first'
        exact ih rest

/-- The sections one after the other, each with the state that it ended with. -/
inductive Atomic (next : σ × κ → Option (σ × κ)) (data : σ) : List (τ × κ × κ) → σ → Prop
  | nil : Atomic next data [] data
  | snoc {log : List (τ × κ × κ)} {data' data'' : σ} {t : τ} {start last : κ} : Atomic next data log data' →
      Whole next (data', start) (data'', last) → Atomic next data (log ++ [(t, start, last)]) data''

section
variable [DecidableEq τ]

def machine (next : σ × κ → Option (σ × κ)) : Machine (State τ σ κ) (Move τ κ) where
  Legal _ _ := True
  step s
    | .enter t start => match s.phase t with
      | .outside => some { s with phase := Function.update s.phase t (.trying start) }
      | _ => none
    | .access t => match s.phase t with
      | .outside => none
      -- the flag is tested and set at once
      | .trying start =>
          if s.flag then some s else some { s with flag := true, phase := Function.update s.phase t (.inside start start) }
      | .inside start now => match next (s.data, now) with
        | some (data, now) => some { s with data := data, phase := Function.update s.phase t (.inside start now) }
        | none => some { s with flag := false, phase := Function.update s.phase t .outside }

def free (data : σ) : State τ σ κ := ⟨false, data, fun _ => .outside⟩

-- what a thread has entered with, has finished and is at
def askedBy (t : τ) (moves : List (Move τ κ)) : List κ :=
  moves.filterMap fun
    | .enter u start => if u = t then some start else none
    | .access _ => none

def doneBy (t : τ) (log : List (τ × κ × κ)) : List κ := log.filterMap fun entry => if entry.1 = t then some entry.2.1 else none

end

def Phase.current : Phase κ → List κ
  | .outside => []
  | .trying start => [start]
  | .inside start _ => [start]

/-- The sections that are over have been made whole, in the order of the log, and at most one is under way. -/
structure Linear [DecidableEq τ] (next : σ × κ → Option (σ × κ)) (first : σ) (moves : List (Move τ κ)) (s : State τ σ κ)
    (log : List (τ × κ × κ)) (data : σ) : Prop where
  atomic : Atomic next first log data
  each : ∀ t, doneBy t log ++ (s.phase t).current = askedBy t moves
  free : s.flag = false → data = s.data ∧ ∀ t start now, s.phase t ≠ .inside start now
  held : s.flag = true → ∃ t start now, s.phase t = .inside start now ∧ (∀ u a b, s.phase u = .inside a b → u = t) ∧
    ReflTransGen (fun a b => next a = some b) (data, start) (s.data, now)

variable [DecidableEq τ] {next : σ × κ → Option (σ × κ)} {first data : σ} {moves : List (Move τ κ)} {s s' : State τ σ κ}
  {log : List (τ × κ × κ)} {t u : τ} {start now last : κ}

theorem askedBy_enter : askedBy u (moves ++ [.enter t start]) = askedBy u moves ++ (if t = u then [start] else []) := by
  rw [askedBy, List.filterMap_append]
  refine congrArg _ ?_
  split_ifs with same <;> simp [same]

theorem askedBy_access : askedBy u (moves ++ [.access t]) = askedBy u moves := by
  rw [askedBy, List.filterMap_append]
  exact List.append_nil _

theorem doneBy_snoc : doneBy u (log ++ [(t, start, last)]) = doneBy u log ++ (if t = u then [start] else []) := by
  rw [doneBy, List.filterMap_append]
  refine congrArg _ ?_
  split_ifs with same <;> simp [same]

section
variable {f : τ → Phase κ} {p : Phase κ}

theorem current_update : (Function.update f t p u).current = if u = t then p.current else (f u).current := by
  rw [Function.update_apply]
  split_ifs <;> rfl

theorem current_kept (same : p.current = (f t).current) (u : τ) : (Function.update f t p u).current = (f u).current := by
  rw [current_update]
  split_ifs with here
  · rw [same, here]
  · rfl

theorem only_update (only : ∀ u a b, f u = .inside a b → u = t) {a b : κ} (inside : Function.update f t p u = .inside a b) :
    u = t := by
  by_contra other
  rw [Function.update_of_ne other] at inside
  exact other (only u a b inside)

end

theorem Linear.alone (linear : Linear next first moves s log data) (inside : s.phase t = .inside start now) :
    s.flag = true ∧ (∀ u a b, s.phase u = .inside a b → u = t) ∧
      ReflTransGen (fun a b => next a = some b) (data, start) (s.data, now) := by
  have set : s.flag = true := by
    by_contra unset
    exact (linear.free (Bool.eq_false_iff.mpr unset)).2 t start now inside
  obtain ⟨v, a, b, own, only, steps⟩ := linear.held set
  have same := only t start now inside
  subst same
  rw [inside] at own
  cases own
  exact ⟨set, only, steps⟩

theorem Linear.enter (linear : Linear next first moves s log data) (outside : s.phase t = .outside) (start : κ) :
    Linear next first (moves ++ [.enter t start]) { s with phase := Function.update s.phase t (.trying start) } log data := by
  have kept {u : τ} {a b : κ} : Function.update s.phase t (.trying start) u = .inside a b ↔ s.phase u = .inside a b := by
    rw [Function.update_apply]
    split_ifs with same
    · rw [same, outside]
      exact ⟨fun no => (by cases no), fun no => (by cases no)⟩
    · rfl
  refine ⟨linear.atomic, fun u => ?_, fun unset => ⟨(linear.free unset).1, fun u a b inside => ?_⟩, fun set => ?_⟩
  · rw [askedBy_enter, ← linear.each, current_update]
    by_cases same : u = t
    · rw [if_pos same, if_pos same.symm, same, outside, Phase.current, Phase.current, List.append_nil]
    · rw [if_neg same, if_neg (Ne.symm same), List.append_nil]
  · exact (linear.free unset).2 u a b (kept.mp inside)
  · obtain ⟨v, a, b, inside, only, steps⟩ := linear.held set
    exact ⟨v, a, b, kept.mpr inside, fun u c d other => only u c d (kept.mp other), steps⟩

theorem Linear.take (linear : Linear next first moves s log data) (trying : s.phase t = .trying start) (unset : s.flag = false) :
    Linear next first (moves ++ [.access t])
      { s with flag := true, phase := Function.update s.phase t (.inside start start) } log data := by
  obtain ⟨same, none⟩ := linear.free unset
  refine ⟨linear.atomic, fun u => ?_, fun no => (by cases no), fun _ =>
    ⟨t, start, start, Function.update_self .., fun u a b => ?_, ?_⟩⟩
  · rw [askedBy_access, ← linear.each, current_kept (by rw [trying]; rfl)]
  · exact only_update fun u a b inside => absurd inside (none u a b)
  · rw [same]

theorem Linear.more {data' : σ} {now' : κ} (linear : Linear next first moves s log data) (inside : s.phase t = .inside start now)
    (more : next (s.data, now) = some (data', now')) :
    Linear next first (moves ++ [.access t])
      { s with data := data', phase := Function.update s.phase t (.inside start now') } log data := by
  obtain ⟨set, only, steps⟩ := linear.alone inside
  refine ⟨linear.atomic, fun u => ?_, fun unset => ?_, fun _ =>
    ⟨t, start, now', Function.update_self .., fun u a b => only_update only, steps.tail more⟩⟩
  · rw [askedBy_access, ← linear.each, current_kept (by rw [inside]; rfl)]
  · exact absurd (set.symm.trans unset) (by decide)

theorem Linear.release (linear : Linear next first moves s log data) (inside : s.phase t = .inside start now)
    (last : next (s.data, now) = none) :
    Linear next first (moves ++ [.access t]) { s with flag := false, phase := Function.update s.phase t .outside }
      (log ++ [(t, start, now)]) s.data := by
  obtain ⟨-, only, steps⟩ := linear.alone inside
  refine ⟨.snoc linear.atomic ⟨steps, last⟩, fun u => ?_, fun _ => ⟨rfl, fun u a b other => ?_⟩, fun no => (by cases no)⟩
  · rw [askedBy_access, ← linear.each, doneBy_snoc, current_update]
    by_cases same : u = t
    · rw [if_pos same, if_pos same.symm, same, inside, Phase.current, Phase.current, List.append_nil]
    · rw [if_neg same, if_neg (Ne.symm same), List.append_nil]
  · have here : u = t := only_update only other
    dsimp only at other
    rw [here, Function.update_self] at other
    cases other

theorem Linear.step {move : Move τ κ} (linear : Linear next first moves s log data)
    (step : (machine next).step s move = some s') : ∃ log data, Linear next first (moves ++ [move]) s' log data := by
  cases move with
  | enter t start =>
      cases phase : s.phase t with
      | outside =>
          simp only [machine, phase] at step
          cases step
          exact ⟨log, data, linear.enter phase start⟩
      | _ =>
          simp only [machine, phase] at step
          cases step
  | access t =>
      cases phase : s.phase t with
      | outside =>
          simp only [machine, phase] at step
          cases step
      | trying start =>
          simp only [machine, phase] at step
          split_ifs at step with flag
          · cases step
            exact ⟨log, data, linear.atomic, fun u => (linear.each u).trans askedBy_access.symm, linear.free, linear.held⟩
          · cases step
            exact ⟨log, data, linear.take phase (Bool.eq_false_iff.mpr flag)⟩
      | inside start now =>
          simp only [machine, phase] at step
          cases more : next (s.data, now) with
          | some after =>
              rw [more] at step
              cases step
              exact ⟨log, data, linear.more phase more⟩
          | none =>
              rw [more] at step
              cases step
              exact ⟨_, _, linear.release phase more⟩

/-- Sections under a spinlock are atomic, in whatever order the threads make their accesses. -/
theorem linear (run : (machine next).Runs (free first) moves s) : ∃ log data, Linear next first moves s log data := by
  induction run with
  | start =>
      exact ⟨[], first, .nil, fun t => rfl, fun _ => ⟨rfl, fun t a b no => (by cases no)⟩, fun no => (by cases no)⟩
  | snoc _ _ step ih =>
      obtain ⟨log, data, before⟩ := ih
      exact before.step step

end Kerosene.Lib.Spinlock
