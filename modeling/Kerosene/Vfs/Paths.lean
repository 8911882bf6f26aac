import Kerosene.Vfs.Accounts

/-!
# Walking along the components of a path
-/

namespace Kerosene.Vfs
open Lib Ramfs

/-! ## Components -/

variable {path name rest : Name}

theorem strtok_length (found : strtok path = some (name, rest)) : rest.length < path.length := by
  rw [strtok] at found
  have shorter : (path.dropWhile (· == slash)).length ≤ path.length := (List.dropWhile_suffix _).sublist.length_le
  cases start : path.dropWhile (· == slash) with
  | nil =>
      rw [start] at found
      cases found
  | cons c token =>
      rw [start] at found shorter
      cases found
      have tail : ((c :: token).dropWhile (· != slash)).length ≤ (c :: token).length := (List.dropWhile_suffix _).sublist.length_le
      rw [List.length_tail]
      rw [List.length_cons] at *
      omega

def tokensLoop : (fuel : Nat) → (path : Name) → List Name
  | 0, _ => []
  | fuel + 1, path =>
      match strtok path with
      | none => []
      | some (name, rest) => name :: tokensLoop fuel rest

/-- The components of a path. -/
def tokens (path : Name) : List Name := tokensLoop (path.length + 1) path

theorem tokensLoop_eq {n m : Nat} (enough : path.length < n) (enough' : path.length < m) : tokensLoop n path = tokensLoop m path := by
  induction n generalizing m path with
  | zero => omega
  | succ n ih =>
      obtain ⟨m, rfl⟩ : ∃ k, m = k + 1 := ⟨m - 1, by omega⟩
      rw [tokensLoop, tokensLoop]
      cases found : strtok path with
      | none => rfl
      | some token =>
          obtain ⟨name, rest⟩ := token
          have shorter := strtok_length found
          exact congrArg _ (ih (by omega) (by omega))

theorem tokens_nil (ends : strtok path = none) : tokens path = [] := by
  rw [tokens, tokensLoop, ends]

theorem tokens_cons (found : strtok path = some (name, rest)) : tokens path = name :: tokens rest := by
  rw [tokens, tokensLoop, found]
  exact congrArg _ (tokensLoop_eq (strtok_length found) (Nat.lt_succ_self _))

end Kerosene.Vfs
