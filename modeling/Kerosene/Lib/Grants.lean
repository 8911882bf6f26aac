import Mathlib.Data.List.Basic
import Mathlib.Data.List.Nodup

/-!
# Answers of an allocator

An allocator answers a request with nothing, or with a block and what it held before. A run of
answers is fresh when it hands out free blocks only, and none of them twice.
-/

namespace Kerosene.Lib
variable {α β : Type*} {free free' : α → Prop} {answer : Option (α × β)} {answers : List (Option (α × β))} {a : α} {stale : β}

def blocksOf (answers : List (Option (α × β))) : List α := answers.filterMap fun answer => answer.map Prod.fst

structure FreshAnswers (free : α → Prop) (answers : List (Option (α × β))) : Prop where
  unused : ∀ a ∈ blocksOf answers, free a
  apart : (blocksOf answers).Nodup

theorem exists_cons_of_head (found : answers.head?.join = some (a, stale)) :
    ∃ rest, answers = some (a, stale) :: rest := by
  cases answers with
  | nil => cases found
  | cons answer rest =>
      have : answer = some (a, stale) := found
      exact ⟨rest, by rw [this]⟩

namespace FreshAnswers

theorem tail (fresh : FreshAnswers free (answer :: answers)) : FreshAnswers free answers := by
  cases answer with
  | none => exact ⟨fresh.unused, fresh.apart⟩
  | some found =>
      exact ⟨fun a member => fresh.unused a (List.mem_cons_of_mem _ member), (List.nodup_cons.mp fresh.apart).2⟩

theorem head (fresh : FreshAnswers free (some (a, stale) :: answers)) : free a ∧ a ∉ blocksOf answers :=
  ⟨fresh.unused a List.mem_cons_self, (List.nodup_cons.mp fresh.apart).1⟩

theorem take (fresh : FreshAnswers free (some (a, stale) :: answers)) (others : ∀ b, b ≠ a → free b → free' b) :
    FreshAnswers free' answers := by
  refine ⟨fun b member => others b ?_ (fresh.tail.unused b member), fresh.tail.apart⟩
  rintro rfl
  exact fresh.head.2 member

end FreshAnswers
end Kerosene.Lib
