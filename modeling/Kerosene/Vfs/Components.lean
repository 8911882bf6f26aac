import Kerosene.Vfs.Paths
import Mathlib.Data.List.TakeWhile

/-!
# The walk over a list of components

What the walk sees of a path: its components, and whether it ends in two slashes or more. The last
component is the last token only when it does not.
-/

namespace Kerosene.Vfs
open Lib Ramfs
variable {σ φ ε : Type}

/-! ## The slashes at the end -/

variable {path name rest : Name}

def trailingSlashes (path : Name) : Nat := (path.reverse.takeWhile (· == slash)).length

/-- At most one slash behind the last component. -/
def plainEnd (path : Name) : Bool := trailingSlashes path ≤ 1

theorem strtok_split (found : strtok path = some (name, rest)) :
    ∃ lead trail, path = lead ++ (name ++ trail) ∧ name ≠ [] ∧ (∀ c ∈ name, c ≠ slash) ∧
      (trail = [] ∧ rest = [] ∨ trail = slash :: rest) := by
  rw [strtok] at found
  cases start : path.dropWhile (· == slash) with
  | nil =>
      rw [start] at found
      cases found
  | cons c token =>
      rw [start] at found
      cases found
      have first : c ≠ slash := by
        have := List.head?_dropWhile_not (· == slash) path
        rw [start] at this
        simpa using this
      refine ⟨path.takeWhile (· == slash), (c :: token).dropWhile (· != slash), ?_, ?_, fun b member => ?_, ?_⟩
      · rw [List.takeWhile_append_dropWhile, ← start, List.takeWhile_append_dropWhile]
      · rw [List.takeWhile_cons_of_pos (by simpa using first)]
        exact List.cons_ne_nil _ _
      · simpa using List.mem_takeWhile_imp member
      · cases behind : (c :: token).dropWhile (· != slash) with
        | nil => exact .inl ⟨rfl, rfl⟩
        | cons b trail =>
            have isSlash := List.head?_dropWhile_not (· != slash) (c :: token)
            rw [behind] at isSlash
            exact .inr (by rw [List.tail_cons, show b = slash by simpa using isSlash])

theorem tokens_eq_nil : tokens path = [] ↔ ∀ c ∈ path, c = slash := by
  cases found : strtok path with
  | none =>
      rw [tokens_nil found]
      refine ⟨fun _ => ?_, fun _ => rfl⟩
      rw [strtok] at found
      cases start : path.dropWhile (· == slash) with
      | cons c token =>
          rw [start] at found
          cases found
      | nil => simpa using List.dropWhile_eq_nil_iff.mp start
  | some token =>
      obtain ⟨name, rest⟩ := token
      rw [tokens_cons found]
      refine ⟨fun wrong => (List.cons_ne_nil _ _ wrong).elim, fun slashes => ?_⟩
      obtain ⟨lead, trail, rfl, nonempty, noSlash, -⟩ := strtok_split found
      obtain ⟨c, l, rfl⟩ := List.exists_cons_of_ne_nil nonempty
      exact absurd (slashes c (by simp)) (noSlash c List.mem_cons_self)

theorem trailingSlashes_append {front back : Name} (other : ∃ c ∈ back, c ≠ slash) :
    trailingSlashes (front ++ back) = trailingSlashes back := by
  rw [trailingSlashes, trailingSlashes, List.reverse_append, List.takeWhile_append, if_neg]
  intro whole
  obtain ⟨c, member, notSlash⟩ := other
  have all := List.takeWhile_eq_self_iff.mp ((List.takeWhile_prefix _).sublist.eq_of_length whole)
  exact notSlash (by simpa using all c (List.mem_reverse.mpr member))

theorem trailingSlashes_slashes {front back : Name} {c : UInt8} (ends : c ≠ slash) (slashes : ∀ b ∈ back, b = slash) :
    trailingSlashes (front ++ [c] ++ back) = back.length := by
  have whole : back.reverse.takeWhile (· == slash) = back.reverse := by
    refine List.takeWhile_eq_self_iff.mpr fun b member => ?_
    rw [slashes b (List.mem_reverse.mp member)]
    rfl
  rw [trailingSlashes, List.reverse_append, List.takeWhile_append, if_pos (by rw [whole]), List.reverse_append,
    List.reverse_singleton, List.singleton_append, List.takeWhile_cons_of_neg (by simpa using ends), List.append_nil,
    List.length_reverse]

theorem rest_isEmpty (found : strtok path = some (name, rest)) :
    rest.isEmpty = (plainEnd path && (tokens rest).isEmpty) := by
  obtain ⟨lead, trail, rfl, nonempty, noSlash, behind⟩ := strtok_split found
  by_cases last : tokens rest = []
  · obtain ⟨init, c, rfl⟩ := (List.eq_nil_or_concat' name).resolve_left nonempty
    have slashes : ∀ b ∈ trail, b = slash := by
      rcases behind with ⟨rfl, -⟩ | rfl
      · simp
      · simpa using tokens_eq_nil.mp last
    have counted : trailingSlashes (lead ++ init ++ [c] ++ trail) = trail.length :=
      trailingSlashes_slashes (noSlash c (by simp)) slashes
    rw [last, plainEnd, ← List.append_assoc, ← List.append_assoc lead, counted]
    rcases behind with ⟨rfl, rfl⟩ | rfl
    · rfl
    · cases rest <;> simp
  · have some : rest.isEmpty = false := by
      cases rest with
      | nil => exact absurd rfl last
      | cons c rest => rfl
    rw [some, List.isEmpty_eq_false_iff.mpr last, Bool.and_false]

theorem plainEnd_rest (found : strtok path = some (name, rest)) (more : tokens rest ≠ []) : plainEnd rest = plainEnd path := by
  obtain ⟨lead, trail, rfl, -, -, ⟨rfl, rfl⟩ | rfl⟩ := strtok_split found
  · exact absurd rfl more
  · have other : ∃ c ∈ rest, c ≠ slash := by
      by_contra none
      exact more (tokens_eq_nil.mpr fun c member => by_contra fun notSlash => none ⟨c, member, notSlash⟩)
    rw [plainEnd, plainEnd, ← List.append_assoc, ← List.singleton_append, ← List.append_assoc, trailingSlashes_append other]

/-! ## The walk -/

section
variable (V : Volumes φ) (S : Store σ φ ε) (disk : σ) (mode : FileMode)

/-- The walk along components, with the answers of `kmalloc` that it leaves. -/
def walkTokens (plain : Bool) : (s : Tree φ ε) → (current : Addr) → (stack : List Addr) → List Name →
    List (Grant φ ε) → Option (Walk φ ε × List (Grant φ ε))
  | s, current, stack, [], grants => some (.arrived s current stack, grants)
  | s, current, stack, name :: rest, grants =>
      if isDot name then do walkTokens plain s (← s.followMount current) stack rest grants
      else if isDotdot name then do
        let node ← s.node current
        walkTokens plain s (← s.followMount (node.parent.getD current)) stack rest grants
      else do
        let node ← s.node current
        match ← s.siblingWhere (fun child => child.name == name) node.children with
        | some child => walkTokens plain s (← s.followMount child) stack rest grants
        | none =>
            match ← load V S disk mode s current name (plain && rest.isEmpty) stack grants with
            | .arrived s new stack => walkTokens plain s (← s.followMount new) stack rest grants.tail
            | walk => return (walk, grants.tail)

end

section
variable {V : Volumes φ} {S : Store σ φ ε} {disk : σ} {mode : FileMode} {s : Tree φ ε} {current cwd : Addr} {stack : List Addr}
variable {grants : List (Grant φ ε)} {fuel : Nat} {plain plain' : Bool}

theorem walkTokens_nil : walkTokens V S disk mode plain s current stack [] grants = some (.arrived s current stack, grants) := by
  rw [walkTokens]

theorem walkLoop_tokens (enough : path.length < fuel) (ends : tokens path ≠ [] → plainEnd path = plain) :
    walkLoop V S disk mode fuel s current stack path grants =
      (walkTokens V S disk mode plain s current stack (tokens path) grants).map Prod.fst := by
  induction fuel generalizing s current stack path grants with
  | zero => omega
  | succ fuel ih =>
      rw [walkLoop]
      cases found : strtok path with
      | none =>
          rw [tokens_nil found, walkTokens_nil]
          rfl
      | some token =>
          obtain ⟨name, rest⟩ := token
          have shorter := strtok_length found
          have ends := ends (by rw [tokens_cons found]; exact List.cons_ne_nil _ _)
          have further : tokens rest ≠ [] → plainEnd rest = plain := fun more => (plainEnd_rest found more).trans ends
          have last : rest.isEmpty = (plain && (tokens rest).isEmpty) := by rw [rest_isEmpty found, ends]
          rw [tokens_cons found, walkTokens, ← last]
          simp only [Option.bind_eq_bind]
          split_ifs with dot dotdot
          · rw [Option.map_bind]
            exact Option.bind_congr fun b followed => ih (by omega) further
          · rw [Option.map_bind]
            refine Option.bind_congr fun node here => ?_
            simp only [Function.comp_apply, Option.map_bind]
            exact Option.bind_congr fun b followed => ih (by omega) further
          · rw [Option.map_bind]
            refine Option.bind_congr fun node here => ?_
            simp only [Function.comp_apply, Option.map_bind]
            refine Option.bind_congr fun child searched => ?_
            cases child with
            | some child =>
                simp only [Function.comp_apply, Option.map_bind]
                exact Option.bind_congr fun b followed => ih (by omega) further
            | none =>
                simp only [Function.comp_apply, Option.map_bind]
                refine Option.bind_congr fun walk loaded => ?_
                cases walk with
                | arrived s' new stack' =>
                    simp only [Function.comp_apply, Option.map_bind]
                    exact Option.bind_congr fun b followed => ih (by omega) further
                | create | nuke | leave => rfl

/-- What comes after `l`, where the walk along `l` goes on. -/
def Walk.andThen (further : Tree φ ε → Addr → List Addr → List (Grant φ ε) → Option (Walk φ ε × List (Grant φ ε))) :
    Walk φ ε × List (Grant φ ε) → Option (Walk φ ε × List (Grant φ ε))
  | (.arrived s current stack, grants) => further s current stack grants
  | walk => some walk

theorem walkTokens_append (l r : List Name) (more : r ≠ []) :
    walkTokens V S disk mode plain s current stack (l ++ r) grants =
      (walkTokens V S disk mode false s current stack l grants).bind
        (Walk.andThen fun s current stack grants => walkTokens V S disk mode plain s current stack r grants) := by
  induction l generalizing s current stack grants with
  | nil => rw [List.nil_append, walkTokens_nil, Option.bind_some, Walk.andThen]
  | cons name l ih =>
      have notLast : (l ++ r).isEmpty = false := by
        rw [List.isEmpty_eq_false_iff]
        exact fun empty => more (List.append_eq_nil_iff.mp empty).2
      rw [List.cons_append, walkTokens, walkTokens, notLast, Bool.and_false, Bool.false_and]
      simp only [Option.bind_eq_bind]
      split_ifs with dot dotdot
      · rw [Option.bind_assoc]
        exact Option.bind_congr fun b followed => ih
      · rw [Option.bind_assoc]
        refine Option.bind_congr fun node here => ?_
        rw [Option.bind_assoc]
        exact Option.bind_congr fun b followed => ih
      · rw [Option.bind_assoc]
        refine Option.bind_congr fun node here => ?_
        rw [Option.bind_assoc]
        refine Option.bind_congr fun child searched => ?_
        cases child with
        | some child =>
            dsimp only
            rw [Option.bind_assoc]
            exact Option.bind_congr fun b followed => ih
        | none =>
            dsimp only
            rw [Option.bind_assoc]
            refine Option.bind_congr fun walk loaded => ?_
            cases walk with
            | arrived s' new stack' =>
                dsimp only
                rw [Option.bind_assoc]
                exact Option.bind_congr fun b followed => ih
            | create | nuke | leave => rfl

end

/-! ## Paths from the root and from the working directory -/

theorem tokens_tail (absolute : path.head? = some slash) : tokens path.tail = tokens path := by
  cases path with
  | nil => cases absolute
  | cons c path =>
      obtain rfl : c = slash := Option.some.inj absolute
      have same : strtok (slash :: path) = strtok path := by
        rw [strtok, strtok, List.dropWhile_cons_of_pos (by rfl)]
      rw [List.tail_cons]
      cases found : strtok path with
      | none => rw [tokens_nil found, tokens_nil (same.trans found)]
      | some token =>
          obtain ⟨name, rest⟩ := token
          rw [tokens_cons found, tokens_cons (same.trans found)]

theorem plainEnd_tail (absolute : path.head? = some slash) (more : tokens path ≠ []) : plainEnd path.tail = plainEnd path := by
  cases path with
  | nil => cases absolute
  | cons c path =>
      obtain rfl : c = slash := Option.some.inj absolute
      have other : ∃ c ∈ path, c ≠ slash := by
        by_contra none
        refine more (tokens_eq_nil.mpr fun c member => ?_)
        rcases List.mem_cons.mp member with rfl | inside
        · rfl
        · exact by_contra fun notSlash => none ⟨c, inside, notSlash⟩
      rw [List.tail_cons, plainEnd, plainEnd, ← List.singleton_append, trailingSlashes_append other]

/-- Where a path starts. -/
def startOf (V : Volumes φ) (path : Name) (cwd : Addr) : Addr :=
  if path.head? = some slash then V.root V.ramfs else cwd

theorem walkPath_tokens {V : Volumes φ} {S : Store σ φ ε} {disk : σ} {mode : FileMode} {s : Tree φ ε} {cwd : Addr}
    {grants : List (Grant φ ε)} :
    walkPath V S disk mode s path cwd grants =
      (walkTokens V S disk mode (plainEnd path) s (startOf V path cwd) [] (tokens path) grants).map Prod.fst := by
  rw [walkPath, startOf]
  by_cases absolute : path.head? = some slash
  · rw [if_pos absolute, if_pos absolute, ← tokens_tail absolute]
    refine walkLoop_tokens (by rw [List.length_tail]; omega) fun more => plainEnd_tail absolute ?_
    rwa [← tokens_tail absolute]
  · rw [if_neg absolute, if_neg absolute]
    exact walkLoop_tokens (Nat.lt_succ_self _) fun _ => rfl

end Kerosene.Vfs
