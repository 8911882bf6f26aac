import Kerosene.Vfs.Spelling

/-!
# Exclusive creation

A lookup with `FILE_OPEN_EXCLUSIVE` looks at the flag where it finds the last component on the storage, and
nowhere else.
-/

namespace Kerosene.Vfs
open Lib Ramfs
variable {σ φ ε : Type}

/-- The walk comes to the directory of the last component. -/
structure ComesTo (V : Volumes φ) (S : Store σ φ ε) (disk : σ) (mode : FileMode) (s : Tree φ ε) (path : Name) (cwd : Addr)
    (grants : List (Grant φ ε)) (name : Name) (s' : Tree φ ε) (current : Addr) (stack : List Addr)
    (left : List (Grant φ ε)) (node : Node φ ε) : Prop where
  last : (tokens path).getLast? = some name
  arrives : walkTokens V S disk mode false s (startOf V path cwd) [] (tokens path).dropLast grants =
    some (.arrived s' current stack, left)
  here : s'.node current = some node

/-- An entry of a directory, in the tree or on the storage, has the name. -/
def HasEntry (V : Volumes φ) (S : Store σ φ ε) (disk : σ) (s : Tree φ ε) (node : Node φ ε) (name : Name) : Prop :=
  isDot name ∨ isDotdot name ∨
    (∃ child, s.siblingWhere (fun child => child.name == name) node.children = some (some child)) ∨
    isDirectory node.flags ∧ ∃ entry ∈ (S.iterate disk node.fs node.data).entries, sameName V node.fs name entry.name

def NamesEntry (V : Volumes φ) (S : Store σ φ ε) (disk : σ) (mode : FileMode) (s : Tree φ ε) (path : Name) (cwd : Addr)
    (kmalloc : Kmalloc φ ε) : Prop :=
  ∃ name s' current stack left node, ComesTo V S disk mode s path cwd kmalloc.nodes name s' current stack left node ∧
    HasEntry V S disk s' node name

/-- The last component is searched on the storage as the last token, or there is no memory to search it. -/
def ChecksEntry (V : Volumes φ) (S : Store σ φ ε) (disk : σ) (mode : FileMode) (s : Tree φ ε) (path : Name) (cwd : Addr)
    (kmalloc : Kmalloc φ ε) : Prop :=
  ∃ name s' current stack left node, ComesTo V S disk mode s path cwd kmalloc.nodes name s' current stack left node ∧
    ¬ isDot name ∧ ¬ isDotdot name ∧ s'.siblingWhere (fun child => child.name == name) node.children = some none ∧
    ¬ stack.length ≥ maxAllocation ∧ (plainEnd path ∨ left.head?.join = none)

/-- An error, with the storage and every node as they were. -/
def Refused [DecidableEq φ] (V : Volumes φ) (S : Store σ φ ε) (disk : σ) (mode : FileMode) (s : Tree φ ε) (path : Name)
    (cwd : Addr) (createFlags : BitVec 32) (kmalloc : Kmalloc φ ε) : Prop :=
  ∃ found, vfsFindAndCreateNode V S disk s path cwd mode createFlags kmalloc = some found ∧ found.err ≠ .success ∧
    found.disk = disk ∧ ∀ a, (s.node a).isSome → found.tree.node a = s.node a

namespace Tree
variable {s₀ s s' : Tree φ ε} {a b : Addr} {stack : List Addr} {strayed : Bool}

/-! ## What is left of the nodes -/

theorem WellFormed.congr (wellFormed : s.WellFormed) (same : s'.node = s.node) : s'.WellFormed := by
  obtain ⟨kids, depth, shape⟩ := wellFormed.shape
  have first : s'.first = s.first := funext fun a => by rw [first, first, same]
  have next : s'.next = s.next := funext fun a => by rw [next, next, same]
  have parent : s'.parent = s.parent := funext fun a => by rw [parent, parent, same]
  refine ⟨⟨kids, depth, ?_⟩, fun a top => ?_⟩
  · rw [same]
    exact shape.congr (fun a _ => congrFun first a) (fun a _ => congrFun next a) fun a _ => payload_congr (congrFun same a)
  · rw [next]
    rw [parent] at top
    exact wellFormed.alone a top

theorem modify_none (free : s.node a = none) (b : Addr) (f : Node φ ε → Node φ ε) : (s.modify b f).node a = none := by
  by_cases same : a = b
  · subst same
    simp [modify, free]
  · rw [modify_of_ne same, free]

theorem unlink_none (free : s.node a = none) (done : s.unlink b = some s') : s'.node a = none := by
  simp only [unlink, Option.bind_eq_bind, Option.bind_eq_some_iff] at done
  obtain ⟨node, -, done⟩ := done
  cases up : node.parent with
  | none =>
      rw [up] at done
      cases done
      exact free
  | some p =>
      simp only [up, Option.bind_eq_some_iff] at done
      obtain ⟨parent, -, done⟩ := done
      split_ifs at done
      · cases done
        exact modify_none free ..
      · obtain ⟨before, -, done⟩ := Option.bind_eq_some_iff.mp done
        cases before with
        | none =>
            cases done
            exact free
        | some before =>
            cases done
            exact modify_none free ..

theorem nukeSearchStack_none (free : a ∉ stack → s.node a = none) (done : nukeSearchStack s stack = some s') :
    s'.node a = none := by
  cases stack with
  | nil =>
      cases done
      exact free (by simp)
  | cons bottom rest =>
      obtain ⟨s₁, unlinked, done⟩ := Option.bind_eq_some_iff.mp done
      cases done
      rw [(foldl_kfree (bottom :: rest) s₁).2 a]
      split_ifs with member
      · rfl
      · exact unlink_none (free member) unlinked

theorem Stopped.new_none (stopped : s₀.Stopped strayed s stack) (notOld : ¬ (s₀.node a).isSome) (outside : a ∉ stack) :
    s.node a = none := by
  cases stopped with
  | linked searching =>
      rw [← Option.not_isSome_iff_eq_none, searching.nodes]
      exact not_or.mpr ⟨notOld, outside⟩
  | @unlinked s stack new node searching free up =>
      rw [List.mem_append, not_or, List.mem_singleton] at outside
      rw [put_of_ne outside.2, ← Option.not_isSome_iff_eq_none, searching.nodes]
      exact not_or.mpr ⟨notOld, outside.1⟩

theorem Stopped.unchanged_iff (stopped : s₀.Stopped strayed s stack) (wellFormed : s₀.WellFormed)
    (done : nukeSearchStack s stack = some s') : (∀ a, (s₀.node a).isSome → s'.node a = s₀.node a) ↔ strayed = false := by
  cases strayed with
  | false =>
      refine iff_of_true (fun a _ => ?_) rfl
      rw [stopped.restored wellFormed done]
  | true =>
      refine iff_of_false (fun unchanged => ?_) (by decide)
      refine stopped.dangles wellFormed done (wellFormed.congr (funext fun a => ?_))
      by_cases old : (s₀.node a).isSome
      · exact unchanged a old
      · rw [nukeSearchStack_none (stopped.new_none old) done, Option.not_isSome_iff_eq_none.mp old]

theorem Searching.changes (searching : s₀.Searching s stack strayed) (wellFormed : s₀.WellFormed) (nonempty : stack ≠ []) :
    ¬ ∀ a, (s₀.node a).isSome → s.node a = s₀.node a := by
  intro unchanged
  obtain ⟨bottom, rest, rfl⟩ := List.exists_cons_of_ne_nil nonempty
  obtain ⟨p, hangs, oldP⟩ := searching.hangs bottom rfl
  obtain ⟨kids₀, depth₀, shape₀⟩ := wellFormed.shape
  obtain ⟨kids, depth, shape⟩ := searching.wellFormed.shape
  have inside := (searching.nodes bottom).mpr (.inr List.mem_cons_self)
  obtain ⟨insideP, listed⟩ := shape.forest.up bottom inside p hangs
  have sameNext : ∀ b ∈ kids₀ p, s.next b = s₀.next b := fun b isKid => by
    rw [next, next, unchanged b (shape₀.forest.kid p oldP b isKid).1]
  have list₀ := (shape₀.forest.list p oldP).congr sameNext
  have first : s.first p = s₀.first p := by rw [Tree.first, Tree.first, unchanged p oldP]
  rw [← first] at list₀
  rw [(shape.forest.list p insideP).unique list₀] at listed
  exact searching.notOld List.mem_cons_self (shape₀.forest.kid p oldP bottom listed).1

end Tree

section
variable {V : Volumes φ} {S : Store σ φ ε} {disk : σ} {mode : FileMode} {s s' s₀ t : Tree φ ε} {path name : Name} {cwd current : Addr}
variable {stack : List Addr} {grants left : List (Grant φ ε)} {node : Node φ ε} {strayed plain : Bool}

/-! ## The walk to the last component -/

theorem walkTokens_searching {l : List Name} (searching : s₀.Searching s stack strayed) (wellFormed : s₀.WellFormed)
    (fresh : FreshAnswers s.Free grants) {stack' : List Addr} {b : Addr}
    (arrives : walkTokens V S disk mode plain s current stack l grants = some (.arrived s' b stack', left)) :
    ∃ strayed', s₀.Searching s' stack' strayed' ∧ FreshAnswers s'.Free left := by
  induction l generalizing s current stack grants strayed with
  | nil =>
      rw [walkTokens_nil] at arrives
      cases arrives
      exact ⟨strayed, searching, fresh⟩
  | cons name l ih =>
      rw [walkTokens] at arrives
      split_ifs at arrives with dot dotdot
      · obtain ⟨b, followed, arrives⟩ := Option.bind_eq_some_iff.mp arrives
        exact ih searching fresh arrives
      · simp only [Option.bind_eq_bind, Option.bind_eq_some_iff] at arrives
        obtain ⟨node, here, b, followed, arrives⟩ := arrives
        exact ih searching fresh arrives
      · simp only [Option.bind_eq_bind, Option.bind_eq_some_iff] at arrives
        obtain ⟨node, here, child, searched, arrives⟩ := arrives
        cases child with
        | some a =>
            obtain ⟨b, followed, arrives⟩ := Option.bind_eq_some_iff.mp arrives
            exact ih searching fresh arrives
        | none =>
            obtain ⟨walk, loaded, arrives⟩ := Option.bind_eq_some_iff.mp arrives
            cases walk with
            | create | nuke | leave => cases arrives
            | arrived t new stack₁ =>
                obtain ⟨b, followed, arrives⟩ := Option.bind_eq_some_iff.mp arrives
                obtain ⟨searching', fresh'⟩ := load_searching searching wellFormed fresh loaded
                exact ih searching' fresh' arrives

theorem ComesTo.walk (comes : ComesTo V S disk mode s path cwd grants name s' current stack left node) :
    walkPath V S disk mode s path cwd grants =
      (walkTokens V S disk mode (plainEnd path) s' current stack [name] left).map Prod.fst := by
  have split := getLast?_split comes.last
  rw [walkPath_tokens]
  have whole : walkTokens V S disk mode (plainEnd path) s (startOf V path cwd) [] (tokens path) grants =
      walkTokens V S disk mode (plainEnd path) s (startOf V path cwd) [] ((tokens path).dropLast ++ [name]) grants := by
    rw [← split]
  rw [whole, walkTokens_concat, comes.arrives]
  rfl

theorem ComesTo.unique {name' : Name} {t : Tree φ ε} {current' : Addr} {stack' : List Addr} {left' : List (Grant φ ε)}
    {node' : Node φ ε} (comes : ComesTo V S disk mode s path cwd grants name s' current stack left node)
    (comes' : ComesTo V S disk mode s path cwd grants name' t current' stack' left' node') :
    name' = name ∧ t = s' ∧ stack' = stack ∧ left' = left ∧ node' = node := by
  have names := comes.last.symm.trans comes'.last
  have walks := comes.arrives.symm.trans comes'.arrives
  cases names
  cases walks
  have nodes := comes.here.symm.trans comes'.here
  cases nodes
  exact ⟨rfl, rfl, rfl, rfl, rfl⟩

theorem walkTokens_goes {walk : Walk φ ε}
    (known : isDot name ∨ isDotdot name ∨ ∃ node child, s.node current = some node ∧
      s.siblingWhere (fun child => child.name == name) node.children = some (some child))
    (done : (walkTokens V S disk mode plain s current stack [name] left).map Prod.fst = some walk) :
    ∃ t b stack', walk = .arrived t b stack' := by
  rw [walkTokens] at done
  split_ifs at done with dot dotdot
  · cases followed : s.followMount current with
    | none => simp [followed] at done
    | some b =>
        simp only [followed, Option.bind_eq_bind, Option.bind_some, walkTokens_nil, Option.map_some, Option.some.injEq] at done
        exact ⟨_, _, _, done.symm⟩
  · obtain ⟨last, goes, rfl⟩ := Option.map_eq_some_iff.mp done
    simp only [Option.bind_eq_bind, Option.bind_eq_some_iff, walkTokens_nil, Option.some.injEq] at goes
    obtain ⟨node, here, b, followed, same⟩ := goes
    cases same
    exact ⟨_, _, _, rfl⟩
  · obtain ⟨node, child, here, cached⟩ := known.resolve_left dot |>.resolve_left dotdot
    obtain ⟨last, goes, rfl⟩ := Option.map_eq_some_iff.mp done
    simp only [here, cached, Option.bind_eq_bind, Option.bind_some, Option.bind_eq_some_iff, walkTokens_nil,
      Option.some.injEq] at goes
    obtain ⟨b, followed, same⟩ := goes
    cases same
    exact ⟨_, _, _, rfl⟩

theorem walkTokens_loads (notDot : ¬ isDot name) (notDotdot : ¬ isDotdot name) (here : s.node current = some node)
    (uncached : s.siblingWhere (fun child => child.name == name) node.children = some none) :
    (walkTokens V S disk mode plain s current stack [name] left).map Prod.fst =
      (load V S disk mode s current name plain stack left).bind fun walk =>
        match walk with
        | .arrived t new stack => (t.followMount new).map fun b => .arrived t b stack
        | walk => some walk := by
  rw [walkTokens, if_neg notDot, if_neg notDotdot, here]
  simp only [Option.bind_eq_bind, Option.bind_some, uncached, List.isEmpty_nil, Bool.and_true, Option.map_bind]
  refine Option.bind_congr fun walk loaded => ?_
  cases walk with
  | arrived t new stack' =>
      simp only [Function.comp_apply, Option.map_bind]
      cases t.followMount new <;> rfl
  | create | nuke | leave => rfl

theorem findLoop_listed {parentNode retNode : Node φ ε} {p : Addr} {lastErr : FsErr} {entries : List (Entry ε)}
    (listed : ∃ entry ∈ entries, sameName V parentNode.fs name entry.name) :
    (findLoop V p parentNode name lastErr retNode entries).1 = .success := by
  induction entries generalizing retNode with
  | nil =>
      obtain ⟨entry, member, -⟩ := listed
      cases member
  | cons entry entries ih =>
      rw [findLoop]
      split_ifs with same
      · rfl
      · obtain ⟨other, member, sameOther⟩ := listed
        rcases List.mem_cons.mp member with rfl | inside
        · exact absurd sameOther same
        · exact ih ⟨other, inside, sameOther⟩

theorem nodeFind_listed {retNode : Node φ ε} {p : Addr} (directory : isDirectory node.flags)
    (listed : ∃ entry ∈ (S.iterate disk node.fs node.data).entries, sameName V node.fs name entry.name) :
    (nodeFind V S disk p node name retNode).1 = .success := by
  rw [nodeFind, if_pos directory]
  exact findLoop_listed listed

/-! ## The whole function -/

variable [DecidableEq φ] {createFlags : BitVec 32} {kmalloc : Kmalloc φ ε}

theorem goes_notRefused (notOnlydir : ¬ mode.has fileOpenOnlydir) (copied : kmalloc.pathcpy) (stacked : kmalloc.searchStack)
    (goes : ∀ walk, walkPath V S disk mode s path cwd kmalloc.nodes = some walk → ∃ t b stack, walk = .arrived t b stack) :
    ¬ Refused V S disk mode s path cwd createFlags kmalloc := by
  rintro ⟨found, done, failed, -⟩
  cases walked : walkPath V S disk mode s path cwd kmalloc.nodes with
  | none =>
      rw [vfsFindAndCreateNode_eq, if_neg (by simp [copied, stacked]), walked] at done
      cases done
  | some walk =>
      obtain ⟨t, b, stack, rfl⟩ := goes walk walked
      rw [vfsFindAndCreateNode_walk copied stacked walked] at done
      obtain ⟨node, -, done⟩ := Option.bind_eq_some_iff.mp done
      rw [if_neg fun exit => notOnlydir exit.1] at done
      cases done
      exact failed rfl

theorem nuke_refused_iff {err : FsErr} (wellFormed : s.WellFormed) (fresh : FreshAnswers s.Free kmalloc.nodes)
    (copied : kmalloc.pathcpy) (stacked : kmalloc.searchStack) (failed : err ≠ .success)
    (walked : walkPath V S disk mode s path cwd kmalloc.nodes = some (.nuke t err stack)) :
    Refused V S disk mode s path cwd createFlags kmalloc ↔ strays V S disk mode s path cwd kmalloc = false := by
  obtain ⟨strayed, same, stopped⟩ := walkPath_ends wellFormed fresh copied stacked walked
  obtain ⟨t', nuked⟩ := Tree.Stopped.nukes stopped
  have done : vfsFindAndCreateNode V S disk s path cwd mode createFlags kmalloc = some ⟨err, none, t', disk⟩ := by
    rw [vfsFindAndCreateNode_walk copied stacked walked, afterWalk, failLookup, nuked]
    rfl
  rw [same, ← Tree.Stopped.unchanged_iff stopped wellFormed nuked]
  constructor
  · rintro ⟨found, again, -, -, unchanged⟩
    rw [done] at again
    cases again
    exact unchanged
  · exact fun unchanged => ⟨_, done, failed, rfl, unchanged⟩

theorem leave_notRefused {err : FsErr} {strayed : Bool} (wellFormed : s.WellFormed) (copied : kmalloc.pathcpy)
    (stacked : kmalloc.searchStack) (searching : s.Searching t stack strayed) (nonempty : stack ≠ [])
    (walked : walkPath V S disk mode s path cwd kmalloc.nodes = some (.leave t err)) :
    ¬ Refused V S disk mode s path cwd createFlags kmalloc := by
  rintro ⟨found, done, -, -, unchanged⟩
  rw [vfsFindAndCreateNode_walk copied stacked walked] at done
  cases done
  exact searching.changes wellFormed nonempty unchanged

theorem uncached_refused_iff (wellFormed : s.WellFormed) (fresh : FreshAnswers s.Free kmalloc.nodes)
    (exclusive : mode.has fileOpenExclusive) (notOnlydir : ¬ mode.has fileOpenOnlydir) (copied : kmalloc.pathcpy)
    (stacked : kmalloc.searchStack) (comes : ComesTo V S disk mode s path cwd kmalloc.nodes name s' current stack left node)
    (notDot : ¬ isDot name) (notDotdot : ¬ isDotdot name)
    (uncached : s'.siblingWhere (fun child => child.name == name) node.children = some none)
    (directory : isDirectory node.flags)
    (listed : ∃ entry ∈ (S.iterate disk node.fs node.data).entries, sameName V node.fs name entry.name) :
    Refused V S disk mode s path cwd createFlags kmalloc ↔
      (¬ stack.length ≥ maxAllocation ∧ (plainEnd path ∨ left.head?.join = none)) ∧
        strays V S disk mode s path cwd kmalloc = false := by
  have walked := comes.walk
  rw [walkTokens_loads notDot notDotdot comes.here uncached] at walked
  by_cases deep : stack.length ≥ maxAllocation
  · obtain ⟨strayed, searching, -⟩ := walkTokens_searching wellFormed.searching wellFormed fresh comes.arrives
    rw [load, if_pos deep] at walked
    have nonempty : stack ≠ [] := by
      rintro rfl
      exact absurd deep (by decide)
    exact iff_of_false (leave_notRefused wellFormed copied stacked searching nonempty walked) fun h => h.1.1 deep
  cases answer : left.head?.join with
  | none =>
      rw [load, if_neg deep, answer] at walked
      rw [nuke_refused_iff wellFormed fresh copied stacked (by decide) walked]
      simp [deep]
  | some grant =>
      obtain ⟨new, stale⟩ := grant
      obtain ⟨rest, rfl⟩ := exists_cons_of_head answer
      rcases search : nodeFind V S disk current node name { stale with parent := none } with ⟨err, loaded⟩
      obtain rfl : err = .success := by
        have success := @nodeFind_listed _ _ _ _ _ _ _ _ { stale with parent := none } current directory listed
        rw [search] at success
        exact success
      rw [load_eq comes.here deep search, if_neg (by simp), if_neg (by simp)] at walked
      by_cases plain : plainEnd path
      · rw [if_pos ⟨exclusive, plain⟩] at walked
        rw [nuke_refused_iff wellFormed fresh copied stacked (by decide) walked]
        simp [deep, plain]
      · rw [if_neg fun exit => plain exit.2] at walked
        refine iff_of_false (goes_notRefused notOnlydir copied stacked fun walk done => ?_) (by simp [plain])
        rw [walked] at done
        cases appended : (s'.put new loaded).appendChild current new with
        | none => simp [appended] at done
        | some t =>
            cases followed : t.followMount new with
            | none => simp [appended, followed] at done
            | some b =>
                simp only [appended, followed, Option.map_some, Option.bind_some, Option.some.injEq] at done
                exact ⟨_, _, _, done.symm⟩

/-- A lookup with `FILE_OPEN_EXCLUSIVE` refuses an entry that exists, and leaves all as it was, when it searches
the storage for the last component as for the last token, and has not strayed. -/
theorem exclusive_refuses_iff (wellFormed : s.WellFormed) (fresh : FreshAnswers s.Free kmalloc.nodes)
    (exclusive : mode.has fileOpenExclusive) (notOnlydir : ¬ mode.has fileOpenOnlydir) :
    (NamesEntry V S disk mode s path cwd kmalloc → Refused V S disk mode s path cwd createFlags kmalloc) ↔
      (NamesEntry V S disk mode s path cwd kmalloc → ¬ kmalloc.pathcpy ∨ ¬ kmalloc.searchStack ∨
        ChecksEntry V S disk mode s path cwd kmalloc ∧ strays V S disk mode s path cwd kmalloc = false) := by
  refine imp_congr_right fun names => ?_
  obtain ⟨name, s', current, stack, left, node, comes, entry⟩ := names
  by_cases buffers : ¬ kmalloc.pathcpy ∨ ¬ kmalloc.searchStack
  · refine iff_of_true ⟨⟨.notEnoughSpace, none, s, disk⟩, ?_, by simp, rfl, fun _ _ => rfl⟩ ?_
    · rw [vfsFindAndCreateNode_eq, if_pos buffers]
    · exact buffers.imp_right .inl
  rw [not_or, not_not, not_not] at buffers
  obtain ⟨copied, stacked⟩ := buffers
  have checks : ChecksEntry V S disk mode s path cwd kmalloc ↔ ¬ isDot name ∧ ¬ isDotdot name ∧
      s'.siblingWhere (fun child => child.name == name) node.children = some none ∧ ¬ stack.length ≥ maxAllocation ∧
      (plainEnd path ∨ left.head?.join = none) := by
    refine ⟨?_, fun checked => ⟨name, s', current, stack, left, node, comes, checked⟩⟩
    rintro ⟨name', t, current', stack', left', node', comes', checked⟩
    obtain ⟨rfl, rfl, rfl, rfl, rfl⟩ := comes.unique comes'
    exact checked
  rw [checks]
  simp only [copied, stacked, not_true_eq_false, false_or]
  have known : isDot name ∨ isDotdot name ∨ (∃ child,
      s'.siblingWhere (fun child => child.name == name) node.children = some (some child)) →
      ¬ Refused V S disk mode s path cwd createFlags kmalloc := by
    intro known
    refine goes_notRefused notOnlydir copied stacked fun walk done => ?_
    rw [comes.walk] at done
    refine walkTokens_goes ?_ done
    rcases known with dot | dotdot | ⟨child, cached⟩
    · exact .inl dot
    · exact .inr (.inl dotdot)
    · exact .inr (.inr ⟨node, child, comes.here, cached⟩)
  by_cases dot : isDot name
  · exact iff_of_false (known (.inl dot)) fun h => h.1.1 dot
  by_cases dotdot : isDotdot name
  · exact iff_of_false (known (.inr (.inl dotdot))) fun h => h.1.2.1 dotdot
  by_cases cached : ∃ child, s'.siblingWhere (fun child => child.name == name) node.children = some (some child)
  · refine iff_of_false (known (.inr (.inr cached))) fun h => ?_
    obtain ⟨child, cached⟩ := cached
    rw [cached] at h
    cases h.1.2.2.1
  · obtain ⟨directory, listed⟩ := ((entry.resolve_left dot).resolve_left dotdot).resolve_left cached
    have uncached : s'.siblingWhere (fun child => child.name == name) node.children = some none := by
      obtain ⟨strayed, searching, -⟩ := walkTokens_searching wellFormed.searching wellFormed fresh comes.arrives
      obtain ⟨kids, depth, shape⟩ := searching.wellFormed.shape
      have inside : current ∈ {a | (s'.node a).isSome} := by
        change (s'.node current).isSome
        rw [comes.here]
        rfl
      have searched := shape.siblingWhere inside fun child => child.name == name
      rw [Tree.first_eq comes.here] at searched
      cases found : (kids current).find? fun b => (s'.node b).any fun child => child.name == name with
      | none => rw [searched, found]
      | some child => exact absurd ⟨child, searched.trans (congrArg some found)⟩ cached
    rw [uncached_refused_iff wellFormed fresh exclusive notOnlydir copied stacked comes dot dotdot uncached directory listed]
    simp [dot, dotdot, uncached]

end

/-! ## A directory on the storage, and in the tree -/

def createExclusive : FileMode := fileOpenCreate ||| fileOpenExclusive

theorem comesTo_root (s : Tree Unit Bool) (node : Node Unit Bool) (here : s.node 1 = some node)
    (grants : List (Grant Unit Bool)) :
    ComesTo rootVolume twoDirectories () createExclusive s [47, 97] 1 grants [97] s 1 [] grants node where
  last := by decide
  arrives := by
    rw [show (tokens [47, 97]).dropLast = [] by decide, walkTokens_nil]
    rfl
  here := here

/-- `/a` is on the storage and not in the tree. -/
theorem exclusive_refuses_iff_uncached :
    Refused rootVolume twoDirectories () createExclusive rootOnly [47, 97] 1 0#32 threeBlocks := by
  have comes := comesTo_root rootOnly rootNode rfl threeBlocks.nodes
  refine (exclusive_refuses_iff rootOnly_wellFormed threeBlocks_fresh (by decide) (by decide)).mpr (fun _ => .inr (.inr ?_)) ?_
  · exact ⟨⟨_, _, _, _, _, _, comes, by decide, by decide, by decide, by decide, .inl (by decide)⟩, by decide⟩
  · exact ⟨_, _, _, _, _, _, comes, .inr (.inr (.inr ⟨by decide, by decide⟩))⟩

/-- Once `/a` is open, it can be created exclusively. -/
theorem exclusive_opens_cached :
    ∃ first, openPath [47, 97] = some first ∧
      NamesEntry rootVolume twoDirectories () createExclusive first.tree [47, 97] 1 ⟨true, true, []⟩ ∧
      ¬ Refused rootVolume twoDirectories () createExclusive first.tree [47, 97] 1 0#32 ⟨true, true, []⟩ := by
  have runs : (openPath [47, 97]).map (fun first => ((first.tree.node 1).map fun node =>
      first.tree.siblingWhere (fun child => child.name == [97]) node.children,
      (vfsFindAndCreateNode rootVolume twoDirectories () first.tree [47, 97] 1 createExclusive 0#32
        ⟨true, true, []⟩).map Found.err)) = some (some (some (some 2)), some .success) := by decide
  obtain ⟨first, done, shape⟩ := Option.map_eq_some_iff.mp runs
  simp only [Prod.mk.injEq] at shape
  obtain ⟨cached, ends⟩ := shape
  obtain ⟨node, here, cached⟩ := Option.map_eq_some_iff.mp cached
  refine ⟨first, done, ⟨_, _, _, _, _, _, comesTo_root first.tree node here [], .inr (.inr (.inl ⟨2, cached⟩))⟩, ?_⟩
  rintro ⟨found, again, failed, -⟩
  rw [again] at ends
  exact failed (Option.some.inj ends)

end Kerosene.Vfs
