import Mathlib.Data.List.Nodup
import Mathlib.Data.Nat.Count
import Mathlib.Tactic.SplitIfs

namespace Kerosene.Lib

variable {p q : Nat → Prop} [DecidablePred p] [DecidablePred q]

theorem count_congr {n : Nat} (same : ∀ c < n, p c ↔ q c) : Nat.count p n = Nat.count q n := by
  induction n with
  | zero => simp
  | succ n ih =>
      rw [Nat.count_succ, Nat.count_succ, ih fun c hc => same c (by omega)]
      simp only [same n (by omega)]

theorem count_insert {n b : Nat} (inside : b < n) (fresh : ¬ p b) (added : q b)
    (same : ∀ c, c ≠ b → (p c ↔ q c)) : Nat.count q n = Nat.count p n + 1 := by
  induction n with
  | zero => omega
  | succ n ih =>
      rw [Nat.count_succ, Nat.count_succ]
      by_cases last : b = n
      · subst last
        rw [count_congr (p := q) (q := p) fun c hc => (same c (by omega)).symm]
        simp [fresh, added]
      · rw [ih (by omega)]
        simp only [same n (Ne.symm last)]
        omega

theorem count_interval {n s k : Nat} (inside : s + k ≤ n) (fresh : ∀ c, s ≤ c → c < s + k → ¬ p c)
    (same : ∀ c, q c ↔ p c ∨ (s ≤ c ∧ c < s + k)) : Nat.count q n = Nat.count p n + k := by
  induction k generalizing q with
  | zero => exact count_congr fun c _ => by grind
  | succ k ih =>
      have step := ih (q := fun c => p c ∨ (s ≤ c ∧ c < s + k)) (by omega)
        (fun c low high => fresh c low (by omega)) (fun c => Iff.rfl)
      rw [← Nat.add_assoc, ← step]
      apply count_insert (b := s + k) (by omega)
      · have := fresh (s + k) (by omega) (by omega)
        grind
      · exact (same _).mpr (.inr (by omega))
      · intro c hc
        rw [same c]
        grind

theorem count_list {n : Nat} {added : List Nat} (nodup : added.Nodup) (inside : ∀ b ∈ added, b < n)
    (fresh : ∀ b ∈ added, ¬ p b) (same : ∀ c, q c ↔ p c ∨ c ∈ added) :
    Nat.count q n = Nat.count p n + added.length := by
  induction added generalizing q with
  | nil => exact count_congr fun c _ => by simp [same c]
  | cons b rest ih =>
      rw [List.nodup_cons] at nodup
      have step := ih (q := fun c => p c ∨ c ∈ rest) nodup.2 (fun c member => inside c (List.mem_cons_of_mem b member))
        (fun c member => fresh c (List.mem_cons_of_mem b member)) fun c => Iff.rfl
      rw [List.length_cons, ← Nat.add_assoc, ← step]
      apply count_insert (b := b) (inside b List.mem_cons_self)
      · rintro (old | member)
        · exact fresh b List.mem_cons_self old
        · exact nodup.1 member
      · exact (same b).mpr (.inr List.mem_cons_self)
      · intro c other
        rw [same c, List.mem_cons, or_iff_right other]

theorem countP_insert {ι : Type*} {p q : ι → Bool} {l : List ι} {i : ι} (nodup : l.Nodup) (member : i ∈ l)
    (fresh : p i = false) (added : q i = true) (same : ∀ k ∈ l, k ≠ i → p k = q k) :
    l.countP q = l.countP p + 1 := by
  induction l with
  | nil => cases member
  | cons k rest ih =>
      rw [List.nodup_cons] at nodup
      by_cases here : k = i
      · subst here
        have others : rest.countP q = rest.countP p := by
          refine List.countP_congr fun c inside => ?_
          rw [same c (List.mem_cons_of_mem k inside) (by rintro rfl; exact nodup.1 inside)]
        rw [List.countP_cons_of_pos added, List.countP_cons_of_neg (by simp [fresh]), others]
      · have inRest : i ∈ rest := (List.mem_cons.mp member).resolve_left fun h => here h.symm
        rw [List.countP_cons, List.countP_cons, ← same k List.mem_cons_self here,
          ih nodup.2 inRest fun c inside => same c (List.mem_cons_of_mem k inside)]
        omega

/-- Lists joined over an index set, of which one loses and gains elements. -/
theorem flatMap_perm_exchanged {ι α : Type*} {indices : List ι} {f g : ι → List α} {i : ι} {lost extra : List α}
    (nodup : indices.Nodup) (member : i ∈ indices) (same : ∀ k ∈ indices, k ≠ i → g k = f k)
    (exchanged : (lost ++ g i).Perm (extra ++ f i)) : (lost ++ indices.flatMap g).Perm (extra ++ indices.flatMap f) := by
  induction indices with
  | nil => cases member
  | cons k rest ih =>
      rw [List.nodup_cons] at nodup
      rw [List.flatMap_cons, List.flatMap_cons]
      by_cases here : k = i
      · subst here
        have others : rest.flatMap g = rest.flatMap f := by
          refine List.flatMap_congr fun c inside => same c (List.mem_cons_of_mem k inside) ?_
          rintro rfl
          exact nodup.1 inside
        rw [others, ← List.append_assoc, ← List.append_assoc]
        exact exchanged.append_right _
      · have inRest : i ∈ rest := (List.mem_cons.mp member).resolve_left fun h => here h.symm
        have step := ih nodup.2 inRest fun c inside => same c (List.mem_cons_of_mem k inside)
        rw [same k List.mem_cons_self here]
        calc lost ++ (f k ++ rest.flatMap g)
          _ |>.Perm (f k ++ (lost ++ rest.flatMap g)) := List.perm_append_comm_assoc _ _ _
          _ |>.Perm (f k ++ (extra ++ rest.flatMap f)) := step.append_left (f k)
          _ |>.Perm (extra ++ (f k ++ rest.flatMap f)) := List.perm_append_comm_assoc _ _ _

end Kerosene.Lib
