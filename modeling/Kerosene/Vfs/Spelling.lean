import Kerosene.Vfs.Components
import Kerosene.Vfs.FailedSearch

/-!
# Paths with the same components

Two paths that differ in repeated and trailing slashes lead to the same walk, unless only one of them ends in
two slashes or more: then its last component is not the last token.
-/

namespace Kerosene.Vfs
open Lib Ramfs
variable {σ φ ε : Type}

/-- The paths differ in repeated or trailing slashes only. -/
structure SameComponents (p q : Name) : Prop where
  absolute : p.head? = some slash ↔ q.head? = some slash
  components : tokens p = tokens q

/-- What `node_find` says of the last component, if the walk asks for it. -/
def lastSearch (V : Volumes φ) (S : Store σ φ ε) (disk : σ) (mode : FileMode) (s : Tree φ ε) (path : Name) (cwd : Addr)
    (grants : List (Grant φ ε)) : Option FsErr := do
  let name ← (tokens path).getLast?
  match ← walkTokens V S disk mode false s (startOf V path cwd) [] (tokens path).dropLast grants with
  | (.arrived s current stack, grants) =>
      if isDot name ∨ isDotdot name then none
      else do
        let node ← s.node current
        match ← s.siblingWhere (fun child => child.name == name) node.children with
        | some _ => none
        | none =>
            if stack.length ≥ maxAllocation then none
            else do
              let (_, stale) ← grants.head?.join
              return (nodeFind V S disk current node name { stale with parent := none }).1
  | _ => none

/-- The last component is missing on the storage, or it is there and must not be. -/
def EndMatters (V : Volumes φ) (S : Store σ φ ε) (disk : σ) (mode : FileMode) (s : Tree φ ε) (path : Name) (cwd : Addr)
    (kmalloc : Kmalloc φ ε) : Prop :=
  kmalloc.pathcpy ∧ kmalloc.searchStack ∧
    (lastSearch V S disk mode s path cwd kmalloc.nodes = some .notFound ∨
      lastSearch V S disk mode s path cwd kmalloc.nodes = some .success ∧ mode.has fileOpenExclusive)

/-- No filesystem says of an entry to create that it was not found. -/
structure Store.CreatesOrRefuses (S : Store σ φ ε) : Prop where
  nodeCreate : ∀ disk fs data name flags, (S.nodeCreate disk fs data name flags).1 ≠ .error .notFound
  mkdir : ∀ disk fs data name flags, (S.mkdir disk fs data name flags).1 ≠ .error .notFound
  createSpecialNode : ∀ disk fs data name type, (S.createSpecialNode disk fs data name type).1 ≠ .error .notFound

def Found.answer (found : Found σ φ ε) : FsErr × Option Addr × σ := (found.err, found.node, found.disk)

section
variable {V : Volumes φ} {S : Store σ φ ε} {disk : σ} {mode : FileMode} {s s' s₀ : Tree φ ε} {p q path : Name} {cwd current : Addr}
variable {name : Name} {stack : List Addr} {grants rest : List (Grant φ ε)} {err : FsErr} {node stale : Node φ ε} {new : Addr}

/-! ## The last component -/

/-- The walk has come to the last component and searches it. -/
structure AtLast (V : Volumes φ) (S : Store σ φ ε) (disk : σ) (mode : FileMode) (s : Tree φ ε) (path : Name) (cwd : Addr)
    (grants : List (Grant φ ε)) (name : Name) (s' : Tree φ ε) (current : Addr) (stack : List Addr) (node : Node φ ε)
    (new : Addr) (stale : Node φ ε) (rest : List (Grant φ ε)) : Prop where
  split : tokens path = (tokens path).dropLast ++ [name]
  arrives : walkTokens V S disk mode false s (startOf V path cwd) [] (tokens path).dropLast grants =
    some (.arrived s' current stack, some (new, stale) :: rest)
  notDot : ¬ isDot name
  notDotdot : ¬ isDotdot name
  here : s'.node current = some node
  uncached : s'.siblingWhere (fun child => child.name == name) node.children = some none
  shallow : ¬ stack.length ≥ maxAllocation

theorem getLast?_split {l : List Name} (last : l.getLast? = some name) : l = l.dropLast ++ [name] := by
  obtain ⟨init, rfl⟩ := List.getLast?_eq_some_iff.mp last
  rw [List.dropLast_concat]

theorem lastSearch_atLast (searched : lastSearch V S disk mode s path cwd grants = some err) :
    ∃ name s' current stack node new stale rest,
      AtLast V S disk mode s path cwd grants name s' current stack node new stale rest ∧
      (nodeFind V S disk current node name { stale with parent := none }).1 = err := by
  simp only [lastSearch, Option.bind_eq_bind, Option.bind_eq_some_iff] at searched
  obtain ⟨name, last, ⟨walk, left⟩, arrives, searched⟩ := searched
  cases walk with
  | create | nuke | leave => cases searched
  | arrived s' current stack =>
      dsimp only at searched
      by_cases dots : isDot name ∨ isDotdot name
      · rw [if_pos dots] at searched
        cases searched
      rw [if_neg dots] at searched
      obtain ⟨node, here, searched⟩ := Option.bind_eq_some_iff.mp searched
      obtain ⟨child, uncached, searched⟩ := Option.bind_eq_some_iff.mp searched
      cases child with
      | some a => cases searched
      | none =>
          dsimp only at searched
          by_cases deep : stack.length ≥ maxAllocation
          · rw [if_pos deep] at searched
            cases searched
          rw [if_neg deep] at searched
          obtain ⟨⟨new, stale⟩, answer, found⟩ := Option.bind_eq_some_iff.mp searched
          obtain ⟨rest, rfl⟩ := exists_cons_of_head answer
          exact ⟨name, s', current, stack, node, new, stale, rest, ⟨getLast?_split last, arrives, fun dot => dots (.inl dot),
            fun dotdot => dots (.inr dotdot), here, uncached, deep⟩, Option.some.inj found⟩

theorem AtLast.walk (at_ : AtLast V S disk mode s path cwd grants name s' current stack node new stale rest) (plain : Bool) :
    walkTokens V S disk mode plain s (startOf V path cwd) [] (tokens path) grants =
      (load V S disk mode s' current name plain stack (some (new, stale) :: rest)).bind fun walk =>
        match walk with
        | .arrived t new stack => (t.followMount new).bind fun b => some (.arrived t b stack, rest)
        | walk => some (walk, rest) := by
  have whole : walkTokens V S disk mode plain s (startOf V path cwd) [] (tokens path) grants =
      walkTokens V S disk mode plain s (startOf V path cwd) [] ((tokens path).dropLast ++ [name]) grants := by
    rw [← at_.split]
  rw [whole, walkTokens_append _ _ (List.cons_ne_nil _ _), at_.arrives, Option.bind_some, Walk.andThen, walkTokens,
    if_neg at_.notDot, if_neg at_.notDotdot, at_.here]
  simp only [Option.bind_eq_bind, Option.bind_some, at_.uncached, List.isEmpty_nil, Bool.and_true, List.tail_cons]
  refine Option.bind_congr fun walk loaded => ?_
  cases walk with
  | arrived t new stack' =>
      refine Option.bind_congr fun b followed => ?_
      rw [walkTokens_nil]
  | create | nuke | leave => rfl

theorem load_eq {found : Node φ ε} {isLast : Bool} (here : s.node current = some node) (shallow : ¬ stack.length ≥ maxAllocation)
    (search : nodeFind V S disk current node name { stale with parent := none } = (err, found)) :
    load V S disk mode s current name isLast stack (some (new, stale) :: rest) =
      if err = .notFound ∧ isLast then
        some (if doCreateNode mode then .create (s.put new found) current name (stack ++ [new]) rest
          else .nuke (s.put new found) .targetNotFound (stack ++ [new]))
      else if err ≠ .success then some (.nuke (s.put new found) err (stack ++ [new]))
      else if mode.has fileOpenExclusive ∧ isLast then some (.nuke (s.put new found) .entryExisted (stack ++ [new]))
      else ((s.put new found).appendChild current new).map fun t => .arrived t new (stack ++ [new]) := by
  rw [load, if_neg shallow]
  simp only [List.head?_cons, Option.join_some, here, search, Option.bind_eq_bind, Option.bind_some, List.tail_cons]
  split_ifs with missing creates <;> first | rfl | skip
  cases (s.put new found).appendChild current new <;> rfl

theorem load_isLast {a b : Bool} (plain : ∀ parentNode new stale rest, grants = some (new, stale) :: rest →
      s.node current = some parentNode → ¬ stack.length ≥ maxAllocation →
      (nodeFind V S disk current parentNode name { stale with parent := none }).1 ≠ .notFound ∧
        ((nodeFind V S disk current parentNode name { stale with parent := none }).1 = .success → ¬ mode.has fileOpenExclusive)) :
    load V S disk mode s current name a stack grants = load V S disk mode s current name b stack grants := by
  by_cases deep : stack.length ≥ maxAllocation
  · rw [load, load, if_pos deep, if_pos deep]
  cases answer : grants.head?.join with
  | none => rw [load, load, if_neg deep, if_neg deep, answer]
  | some grant =>
      obtain ⟨new, stale⟩ := grant
      obtain ⟨rest, rfl⟩ := exists_cons_of_head answer
      cases here : s.node current with
      | none =>
          rw [load, load, if_neg deep, if_neg deep]
          simp [here]
      | some parentNode =>
          rcases search : nodeFind V S disk current parentNode name { stale with parent := none } with ⟨err, found⟩
          obtain ⟨found', unasked⟩ := plain parentNode new stale rest rfl here deep
          rw [search] at found' unasked
          have notMissing : ∀ c : Bool, ¬ (err = .notFound ∧ c) := fun c missing => found' missing.1
          rw [load_eq here deep search, load_eq here deep search, if_neg (notMissing a), if_neg (notMissing b)]
          by_cases failed : err ≠ .success
          · rw [if_pos failed, if_pos failed]
          · have notExit : ∀ c : Bool, ¬ (mode.has fileOpenExclusive ∧ c) := fun c exit => unasked (not_not.mp failed) exit.1
            rw [if_neg failed, if_neg failed, if_neg (notExit a), if_neg (notExit b)]

/-! ## When the end does not matter -/

theorem walkTokens_concat (plain : Bool) {init : List Name} {start : Addr} :
    walkTokens V S disk mode plain s start stack (init ++ [name]) grants =
      (walkTokens V S disk mode false s start stack init grants).bind
        (Walk.andThen fun s current stack grants => walkTokens V S disk mode plain s current stack [name] grants) :=
  walkTokens_append init [name] (List.cons_ne_nil _ _)

theorem walkTokens_end (plain : Bool)
    (unasked : lastSearch V S disk mode s path cwd grants ≠ some .notFound)
    (unmet : lastSearch V S disk mode s path cwd grants = some .success → ¬ mode.has fileOpenExclusive) :
    walkTokens V S disk mode plain s (startOf V path cwd) [] (tokens path) grants =
      walkTokens V S disk mode false s (startOf V path cwd) [] (tokens path) grants := by
  cases last : (tokens path).getLast? with
  | none => rw [List.getLast?_eq_none_iff.mp last, walkTokens_nil, walkTokens_nil]
  | some name =>
      have split := getLast?_split last
      rw [split, walkTokens_concat, walkTokens_concat]
      refine Option.bind_congr fun walk arrives => ?_
      obtain ⟨walk, left⟩ := walk
      cases walk with
      | create | nuke | leave => rfl
      | arrived s' current stack =>
          simp only [Walk.andThen, walkTokens, List.isEmpty_nil, Bool.and_true]
          split_ifs with dot dotdot
          · rfl
          · rfl
          · refine Option.bind_congr fun node here => Option.bind_congr fun child searched => ?_
            cases child with
            | some a => rfl
            | none =>
                dsimp only
                rw [load_isLast (a := plain) (b := false)]
                intro parentNode new stale rest same herePar shallow
                subst same
                rw [here] at herePar
                cases herePar
                have asked : lastSearch V S disk mode s path cwd grants =
                    some (nodeFind V S disk current node name { stale with parent := none }).1 := by
                  rw [lastSearch, last]
                  simp only [Option.bind_eq_bind, Option.bind_some, arrives]
                  rw [if_neg (by simp [dot, dotdot]), here]
                  simp only [Option.bind_some, searched]
                  rw [if_neg shallow]
                  rfl
                rw [asked] at unasked unmet
                exact ⟨fun found => unasked (congrArg some found), fun found => unmet (congrArg some found)⟩

/-! ## When it matters -/

theorem failLookup_answers {strayed : Bool} (stopped : s₀.Stopped strayed s stack) (err : FsErr) :
    ∃ found, failLookup disk s err stack = some found ∧ found.err = err := by
  obtain ⟨s', nuked⟩ := stopped.nukes
  exact ⟨⟨err, none, s', disk⟩, by rw [failLookup, nuked]; rfl, rfl⟩

theorem failLookup_err {found : Found σ φ ε} (done : failLookup disk s err stack = some found) : found.err = err := by
  obtain ⟨s', -, done⟩ := Option.bind_eq_some_iff.mp done
  cases done
  rfl

theorem finishLookup_err {found : Found σ φ ε} (done : finishLookup disk mode s current stack = some found) :
    found.err = .success ∨ found.err = .notDir := by
  obtain ⟨node, -, done⟩ := Option.bind_eq_some_iff.mp done
  split_ifs at done
  · exact .inr (failLookup_err done)
  · cases done
    exact .inl rfl

variable [DecidableEq φ] {createFlags : BitVec 32} {kmalloc : Kmalloc φ ε}

theorem createEntry_found (refuses : S.CreatesOrRefuses) :
    (createEntry V S disk node name createFlags).1 ≠ .error .notFound := by
  rw [createEntry]
  split_ifs
  · exact refuses.createSpecialNode disk node.fs node.data name _
  · simp
  · exact refuses.mkdir disk node.fs node.data name createFlags
  · exact refuses.nodeCreate disk node.fs node.data name createFlags
  · simp

theorem createLookup_err {found : Found σ φ ε} (refuses : S.CreatesOrRefuses)
    (done : createLookup V S disk mode createFlags s current name stack grants = some found) : found.err ≠ .notFound := by
  rw [createLookup] at done
  cases answer : grants.head?.join with
  | none =>
      rw [answer] at done
      rw [failLookup_err done]
      decide
  | some grant =>
      obtain ⟨new, stale⟩ := grant
      simp only [answer, Option.bind_eq_bind, Option.bind_eq_some_iff] at done
      obtain ⟨parentNode, here, done⟩ := done
      rcases created : createEntry V S disk parentNode name createFlags with ⟨err | entry, disk'⟩
      · simp only [created] at done
        rw [failLookup_err done]
        rintro rfl
        have refused : (createEntry V S disk parentNode name createFlags).1 ≠ .error .notFound := createEntry_found refuses
        rw [created] at refused
        exact refused rfl
      · simp only [created, Option.bind_eq_some_iff] at done
        obtain ⟨t, -, done⟩ := done
        rcases finishLookup_err done with ended | ended <;> rw [ended] <;> decide

-- what the function makes of the walk
def afterWalk (V : Volumes φ) (S : Store σ φ ε) (disk : σ) (mode : FileMode) (createFlags : BitVec 32) :
    Walk φ ε → Option (Found σ φ ε)
  | .arrived s current stack => finishLookup disk mode s current stack
  | .create s parent name stack grants => createLookup V S disk mode createFlags s parent name stack grants
  | .nuke s err stack => failLookup disk s err stack
  | .leave s err => some ⟨err, none, s, disk⟩

theorem vfsFindAndCreateNode_eq : vfsFindAndCreateNode V S disk s path cwd mode createFlags kmalloc =
    if ¬ kmalloc.pathcpy ∨ ¬ kmalloc.searchStack then some ⟨.notEnoughSpace, none, s, disk⟩
    else (walkPath V S disk mode s path cwd kmalloc.nodes).bind (afterWalk V S disk mode createFlags) := by
  rw [vfsFindAndCreateNode]
  refine if_congr Iff.rfl rfl (Option.bind_congr fun walk _ => ?_)
  cases walk <;> rfl

theorem vfsFindAndCreateNode_walk {walk : Walk φ ε} (copied : kmalloc.pathcpy) (stacked : kmalloc.searchStack)
    (walked : walkPath V S disk mode s path cwd kmalloc.nodes = some walk) :
    vfsFindAndCreateNode V S disk s path cwd mode createFlags kmalloc = afterWalk V S disk mode createFlags walk := by
  rw [vfsFindAndCreateNode_eq, if_neg (by simp [copied, stacked]), walked, Option.bind_some]

theorem lookup_nuked (wellFormed : s.WellFormed) (fresh : FreshAnswers s.Free kmalloc.nodes) (copied : kmalloc.pathcpy)
    (stacked : kmalloc.searchStack) (walked : walkPath V S disk mode s path cwd kmalloc.nodes = some (.nuke s' err stack))
    (createFlags : BitVec 32) : ∃ found, vfsFindAndCreateNode V S disk s path cwd mode createFlags kmalloc = some found ∧
    found.err = err := by
  obtain ⟨strayed, -, stopped⟩ := walkPath_ends wellFormed fresh copied stacked walked
  rw [vfsFindAndCreateNode_walk copied stacked walked]
  exact failLookup_answers stopped err

theorem endMatters_err (wellFormed : s.WellFormed) (fresh : FreshAnswers s.Free kmalloc.nodes) (refuses : S.CreatesOrRefuses)
    (matters : EndMatters V S disk mode s p cwd kmalloc) (same : SameComponents p q) (plain : plainEnd p)
    (twice : plainEnd q = false) :
    (vfsFindAndCreateNode V S disk s p cwd mode createFlags kmalloc).map Found.err ≠
      (vfsFindAndCreateNode V S disk s q cwd mode createFlags kmalloc).map Found.err := by
  obtain ⟨copied, stacked, searched⟩ := matters
  obtain ⟨err, asked, which⟩ : ∃ err, lastSearch V S disk mode s p cwd kmalloc.nodes = some err ∧
      (err = .notFound ∨ err = .success ∧ mode.has fileOpenExclusive) := by
    rcases searched with missing | ⟨there, exclusive⟩
    · exact ⟨_, missing, .inl rfl⟩
    · exact ⟨_, there, .inr ⟨rfl, exclusive⟩⟩
  obtain ⟨name, t, current, stack, node, new, stale, rest, at_, found⟩ := lastSearch_atLast asked
  rcases search : nodeFind V S disk current node name { stale with parent := none } with ⟨err', loaded⟩
  obtain rfl : err' = err := by rw [search] at found; exact found
  have walkP : walkPath V S disk mode s p cwd kmalloc.nodes =
      (walkTokens V S disk mode true s (startOf V p cwd) [] (tokens p) kmalloc.nodes).map Prod.fst := by
    rw [walkPath_tokens, plain]
  have walkQ : walkPath V S disk mode s q cwd kmalloc.nodes =
      (walkTokens V S disk mode false s (startOf V p cwd) [] (tokens p) kmalloc.nodes).map Prod.fst := by
    have start : startOf V q cwd = startOf V p cwd := by simp only [startOf, same.absolute]
    rw [walkPath_tokens, twice, start, same.components]
  rw [at_.walk, load_eq at_.here at_.shallow search] at walkP walkQ
  rcases which with rfl | ⟨rfl, exclusive⟩
  · rw [if_neg (by simp), if_pos (by decide)] at walkQ
    rw [if_pos ⟨rfl, rfl⟩] at walkP
    obtain ⟨foundQ, doneQ, errQ⟩ := lookup_nuked wellFormed fresh copied stacked walkQ createFlags
    rw [doneQ, Option.map_some, errQ]
    intro wrong
    obtain ⟨foundP, doneP, errP⟩ := Option.map_eq_some_iff.mp wrong
    by_cases creates : doCreateNode mode
    · rw [if_pos creates] at walkP
      rw [vfsFindAndCreateNode_walk copied stacked walkP] at doneP
      exact createLookup_err refuses doneP errP
    · rw [if_neg creates] at walkP
      rw [vfsFindAndCreateNode_walk copied stacked walkP] at doneP
      rw [failLookup_err doneP] at errP
      cases errP
  · rw [if_neg (by decide), if_neg (by decide), if_pos ⟨exclusive, rfl⟩] at walkP
    rw [if_neg (by decide), if_neg (by decide), if_neg (by simp)] at walkQ
    obtain ⟨foundP, doneP, errP⟩ := lookup_nuked wellFormed fresh copied stacked walkP createFlags
    rw [doneP, Option.map_some, errP]
    intro wrong
    obtain ⟨foundQ, doneQ, errQ⟩ := Option.map_eq_some_iff.mp wrong.symm
    cases appended : (t.put new loaded).appendChild current new with
    | none =>
        rw [vfsFindAndCreateNode_eq, if_neg (by simp [copied, stacked]), walkQ, appended] at doneQ
        cases doneQ
    | some t' =>
        rw [appended] at walkQ
        cases followed : t'.followMount new with
        | none =>
            rw [vfsFindAndCreateNode_eq, if_neg (by simp [copied, stacked]), walkQ] at doneQ
            simp [followed] at doneQ
        | some b =>
            simp only [Option.map_some, Option.bind_some, followed] at walkQ
            rw [vfsFindAndCreateNode_walk copied stacked walkQ] at doneQ
            rcases finishLookup_err doneQ with ended | ended <;> rw [ended] at errQ <;> cases errQ

/-- When both paths end in two slashes or more, or neither does, the lookups are the same in all they do. -/
theorem spelling_iff (same : SameComponents p q) :
    (plainEnd p = plainEnd q ∨ ¬ EndMatters V S disk mode s p cwd kmalloc →
      vfsFindAndCreateNode V S disk s p cwd mode createFlags kmalloc =
        vfsFindAndCreateNode V S disk s q cwd mode createFlags kmalloc) ∧
    (s.WellFormed → FreshAnswers s.Free kmalloc.nodes → S.CreatesOrRefuses →
      (vfsFindAndCreateNode V S disk s p cwd mode createFlags kmalloc).map Found.answer =
        (vfsFindAndCreateNode V S disk s q cwd mode createFlags kmalloc).map Found.answer →
      plainEnd p = plainEnd q ∨ ¬ EndMatters V S disk mode s p cwd kmalloc) := by
  have start : startOf V q cwd = startOf V p cwd := by simp only [startOf, same.absolute]
  constructor
  · intro condition
    rw [vfsFindAndCreateNode_eq, vfsFindAndCreateNode_eq]
    by_cases buffers : ¬ kmalloc.pathcpy ∨ ¬ kmalloc.searchStack
    · rw [if_pos buffers, if_pos buffers]
    · rw [if_neg buffers, if_neg buffers, walkPath_tokens, walkPath_tokens, start, ← same.components]
      rcases condition with plain | unasked
      · rw [plain]
      · rw [EndMatters, not_and, not_and, not_or, not_and] at unasked
        rw [not_or, not_not, not_not] at buffers
        obtain ⟨notFound, success⟩ := unasked buffers.1 buffers.2
        rw [walkTokens_end (plainEnd p) notFound success, walkTokens_end (plainEnd q) notFound success]
  · intro wellFormed fresh refuses answers
    by_contra condition
    rw [not_or, not_not] at condition
    obtain ⟨differ, matters⟩ := condition
    have errs : (vfsFindAndCreateNode V S disk s p cwd mode createFlags kmalloc).map Found.err =
        (vfsFindAndCreateNode V S disk s q cwd mode createFlags kmalloc).map Found.err := by
      have := congrArg (Option.map Prod.fst) answers
      rwa [Option.map_map, Option.map_map] at this
    cases plain : plainEnd p with
    | true =>
        have twice : plainEnd q = false := by
          cases other : plainEnd q with
          | false => rfl
          | true => exact absurd (plain.trans other.symm) differ
        exact endMatters_err wellFormed fresh refuses matters same plain twice errs
    | false =>
        have other : plainEnd q = true := by
          cases other : plainEnd q with
          | true => rfl
          | false => exact absurd (plain.trans other.symm) differ
        have matters' : EndMatters V S disk mode s q cwd kmalloc := by
          simp only [EndMatters, lastSearch, start, ← same.components] at matters ⊢
          exact matters
        exact endMatters_err wellFormed fresh refuses matters' ⟨same.absolute.symm, same.components.symm⟩ other plain errs.symm

end

/-! ## Paths below a root directory -/

theorem twoDirectories_refuses : twoDirectories.CreatesOrRefuses :=
  ⟨fun _ _ _ _ _ => by simp [twoDirectories], fun _ _ _ _ _ => by simp [twoDirectories],
    fun _ _ _ _ _ => by simp [twoDirectories]⟩

/-- `/a/b` and `//a///b/`: both find `a`, and both say that nothing in it is called `b`. -/
theorem spelling_iff_below :
    openPath [47, 97, 47, 98] = openPath [47, 47, 97, 47, 47, 47, 98, 47] ∧
    (plainEnd [47, 97, 47, 98] = plainEnd [47, 47, 97, 47, 47, 47, 98, 47] ∨
      ¬ EndMatters rootVolume twoDirectories () fileOpenRead rootOnly [47, 97, 47, 98] 1 threeBlocks) := by
  have same : SameComponents [47, 97, 47, 98] [47, 47, 97, 47, 47, 47, 98, 47] := ⟨by decide, by decide⟩
  have equal : openPath [47, 97, 47, 98] = openPath [47, 47, 97, 47, 47, 47, 98, 47] := (spelling_iff same).1 (.inl (by decide))
  exact ⟨equal, (spelling_iff same).2 rootOnly_wellFormed threeBlocks_fresh twoDirectories_refuses
    (congrArg (Option.map Found.answer) equal)⟩

/-- `/c` and `/c//`: the second error is the one that `node_find` gave. -/
theorem spelling_matters :
    SameComponents [47, 99] [47, 99, 47, 47] ∧
    (openPath [47, 99]).map Found.err = some .targetNotFound ∧ (openPath [47, 99, 47, 47]).map Found.err = some .notFound ∧
    (openPath [47, 99]).map Found.answer ≠ (openPath [47, 99, 47, 47]).map Found.answer := by
  have one : (openPath [47, 99]).map Found.err = some .targetNotFound := by decide
  have two : (openPath [47, 99, 47, 47]).map Found.err = some .notFound := by decide
  refine ⟨⟨by decide, by decide⟩, one, two, fun same => ?_⟩
  have errs := congrArg (Option.map Prod.fst) same
  rw [Option.map_map, Option.map_map] at errs
  have wrong : (some FsErr.targetNotFound) = some FsErr.notFound := one.symm.trans (errs.trans two)
  cases wrong

end Kerosene.Vfs
