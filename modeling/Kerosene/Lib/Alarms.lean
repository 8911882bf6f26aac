import Mathlib.Data.List.Basic
import Mathlib.Data.List.Pairwise

/-!
# Alarms on a line sorted by due time

Every waiter has a due time on one clock. A tick advances the clock and takes off the front of the
line whoever is due; the clock may start again from anywhere once the line is empty.
-/

namespace Kerosene.Lib

structure Alarms (π : Type*) where
  clock : Nat
  line : List (π × Nat)

namespace Alarms
variable {π : Type*} {a b : Alarms π} {p : π} {due : Nat}

def Ordered (a : Alarms π) : Prop := a.line.Pairwise (·.2 ≤ ·.2)

/-- `p` joins the line behind everybody who is due before it. -/
def Joins (p : π) (due : Nat) (a b : Alarms π) : Prop :=
  b.clock = a.clock ∧ ∃ front back, a.line = front ++ back ∧ b.line = front ++ (p, due) :: back ∧
    (∀ x ∈ front, x.2 < due) ∧ ∀ x, back.head? = some x → due ≤ x.2

structure Ticked (front back : List (π × Nat)) (a b : Alarms π) : Prop where
  before : a.line = front ++ back
  after : b.line = back
  due : ∀ x ∈ front, x.2 ≤ a.clock + 1
  early : ∀ x, back.head? = some x → a.clock + 1 < x.2
  clock : back ≠ [] → b.clock = a.clock + 1
  bound : b.clock ≤ a.clock + 1

theorem Ordered.tail_ge {front back : List (π × Nat)} {bound : Nat} (ordered : a.Ordered) (line : a.line = front ++ back)
    (first : ∀ x, back.head? = some x → bound ≤ x.2) : ∀ x ∈ back, bound ≤ x.2 := by
  rw [Ordered, line, List.pairwise_append] at ordered
  cases back with
  | nil => simp
  | cons y back =>
      have fromY := (List.pairwise_cons.mp ordered.2.1).1
      intro x member
      rcases List.mem_cons.mp member with rfl | later
      · exact first x rfl
      · exact Nat.le_trans (first y rfl) (fromY x later)

theorem Joins.ordered (joins : Joins p due a b) (ordered : a.Ordered) : b.Ordered := by
  obtain ⟨-, front, back, before, after, earlier, later⟩ := joins
  have behind := ordered.tail_ge before later
  rw [Ordered, before, List.pairwise_append] at ordered
  rw [Ordered, after, List.pairwise_append, List.pairwise_cons]
  refine ⟨ordered.1, ⟨behind, ordered.2.1⟩, fun x inFront y member => ?_⟩
  rcases List.mem_cons.mp member with rfl | inBack
  · exact Nat.le_of_lt (earlier x inFront)
  · exact ordered.2.2 x inFront y inBack

theorem Joins.mem_iff (joins : Joins p due a b) (x : π × Nat) : x ∈ b.line ↔ x = (p, due) ∨ x ∈ a.line := by
  obtain ⟨-, front, back, before, after, -⟩ := joins
  rw [before, after]
  simp only [List.mem_append, List.mem_cons]
  tauto

section
variable {front back : List (π × Nat)}

theorem Ticked.ordered (ticked : Ticked front back a b) (ordered : a.Ordered) : b.Ordered := by
  rw [Ordered, ticked.before, List.pairwise_append] at ordered
  rw [Ordered, ticked.after]
  exact ordered.2.1

theorem Ticked.stays_iff (ticked : Ticked front back a b) (ordered : a.Ordered) {x : π × Nat} (member : x ∈ a.line) :
    (a.clock + 1 < x.2 → x ∈ back) ∧ (x.2 ≤ a.clock + 1 → x ∈ front ∧ x ∉ back) := by
  have late := ordered.tail_ge ticked.before ticked.early
  rw [ticked.before] at member
  refine ⟨fun early => ?_, fun isDue => ?_⟩
  · rcases List.mem_append.mp member with inFront | inBack
    · exact absurd (ticked.due x inFront) (by omega)
    · exact inBack
  · have outside : x ∉ back := fun inBack => by
      have := late x inBack
      omega
    exact ⟨(List.mem_append.mp member).resolve_right outside, outside⟩

end

inductive Step : Alarms π → Bool → Alarms π → Prop
  | idle (a : Alarms π) : Step a false a
  | join {a b : Alarms π} {p : π} {due : Nat} : Joins p due a b → Step a false b
  | tick {a b : Alarms π} {front back : List (π × Nat)} : Ticked front back a b → Step a true b

variable {ticks : Bool}

theorem Step.ordered (step : Step a ticks b) (ordered : a.Ordered) : b.Ordered := by
  cases step with
  | idle => exact ordered
  | join joins => exact joins.ordered ordered
  | tick ticked => exact ticked.ordered ordered

theorem Step.clock_le (step : Step a ticks b) : b.clock ≤ a.clock + ticks.toNat := by
  cases step with
  | idle => exact Nat.le_refl _
  | join joins => exact Nat.le_of_eq joins.1
  | tick ticked => exact ticked.bound

theorem Step.keeps (step : Step a ticks b) (ordered : a.Ordered) (member : (p, due) ∈ a.line)
    (early : ticks = true → a.clock + 1 < due) : (p, due) ∈ b.line ∧ b.clock = a.clock + ticks.toNat := by
  cases step with
  | idle => exact ⟨member, rfl⟩
  | join joins => exact ⟨(joins.mem_iff _).mpr (.inr member), joins.1⟩
  | tick ticked =>
      have stays := (ticked.stays_iff ordered member).1 (early rfl)
      exact ⟨by rw [ticked.after]; exact stays, ticked.clock (List.ne_nil_of_mem stays)⟩

end Alarms
end Kerosene.Lib
