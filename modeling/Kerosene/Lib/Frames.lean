import Mathlib.Data.List.Induction
import Mathlib.Logic.Function.Basic
import Mathlib.Algebra.GroupWithZero.Nat

/-!
# Streams of frames

A receiver takes one symbol at a time. Each event has frames, the sequences of symbols that announce it. Where
every frame, taken from a state at rest, does what its event does and leaves the receiver at rest, a stream of
whole frames is read as its events. What a receiver keeps of the events is a map of last writes or a toggle.
-/

namespace Kerosene.Lib
variable {σ ι ε κ ν : Type*}

structure Framing (receive : σ → ι → Option σ) (Rest : σ → Prop) (Frame : ε → List ι → Prop) (effect : σ → ε → σ) :
    Prop where
  frame : ∀ s e f, Rest s → Frame e f → f.foldlM receive s = some (effect s e)
  rest : ∀ s e, Rest s → Rest (effect s e)

namespace Framing
variable {receive : σ → ι → Option σ} {Rest : σ → Prop} {Frame : ε → List ι → Prop} {effect : σ → ε → σ} {s : σ}
  {events : List ε} {frames : List (List ι)}

theorem atRest (framing : Framing receive Rest Frame effect) (rest : Rest s) (events : List ε) :
    Rest (events.foldl effect s) := by
  induction events generalizing s with
  | nil => exact rest
  | cons e events ih => exact ih (framing.rest s e rest)

/-- A stream of whole frames is read as the events that they announce. -/
theorem stream (framing : Framing receive Rest Frame effect) (rest : Rest s) (framed : List.Forall₂ Frame events frames) :
    frames.flatten.foldlM receive s = some (events.foldl effect s) := by
  induction framed generalizing s with
  | nil => rfl
  | @cons e f events frames here _ ih =>
      rw [List.flatten_cons, List.foldlM_append, framing.frame s e f rest here]
      exact ih (framing.rest s e rest)

end Framing

/-! ## What is kept of the events -/

section
variable [DecidableEq κ]

def lastWrite (writes : List (κ × ν)) (k : κ) : Option ν := (writes.filter fun w => w.1 = k).getLast?.map Prod.snd

theorem lastWrite_concat (writes : List (κ × ν)) (w : κ × ν) (k : κ) :
    lastWrite (writes ++ [w]) k = if w.1 = k then some w.2 else lastWrite writes k := by
  rw [lastWrite, List.filter_append]
  split_ifs with here
  · rw [List.filter_cons_of_pos (by simpa using here), List.filter_nil, List.getLast?_concat]
    rfl
  · rw [List.filter_cons_of_neg (by simpa using here), List.filter_nil, List.append_nil, lastWrite]

theorem foldl_update (f : κ → ν) (writes : List (κ × ν)) (k : κ) :
    writes.foldl (fun f w => Function.update f w.1 w.2) f k = (lastWrite writes k).getD (f k) := by
  induction writes using List.reverseRecOn with
  | nil => rfl
  | append_singleton writes w ih =>
      rw [List.foldl_append, List.foldl_cons, List.foldl_nil, lastWrite_concat]
      split_ifs with here
      · rw [← here, Function.update_self]
        rfl
      · rw [Function.update_of_ne (Ne.symm here), ih]

end

theorem foldl_toggle (p : ε → Bool) (on : Bool) (events : List ε) :
    events.foldl (fun on e => if p e then !on else on) on = (on ^^ decide (events.countP p % 2 = 1)) := by
  induction events generalizing on with
  | nil => exact (Bool.xor_false on).symm
  | cons e events ih =>
      rw [List.foldl_cons, ih, List.countP_cons]
      cases p e with
      | false => rfl
      | true =>
          simp only [if_true]
          obtain even | odd := Nat.mod_two_eq_zero_or_one (events.countP p)
          · rw [decide_eq_false (by omega), decide_eq_true (by omega), Bool.xor_false, Bool.xor_true]
          · rw [decide_eq_true odd, decide_eq_false (by omega), Bool.xor_true, Bool.not_not, Bool.xor_false]

end Kerosene.Lib
