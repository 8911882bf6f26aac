import Kerosene.Vfs.HeapCalls

/-!
# What a lookup leaves in the kernel heap

A node that the search takes is linked, or on the stack that is freed at the end. When the last component
is to be created, the node that the search took for it is neither.
-/

namespace Kerosene.Vfs
open Lib Ramfs
variable {σ φ ε : Type}

namespace Tree
variable {s s' : Tree φ ε} {a b p new last : Addr} {node : Node φ ε} {stops : Node φ ε → Bool} {start : Option Addr} {fuel : Nat}

/-- On the list of children of its parent. -/
def Listed (s : Tree φ ε) (a : Addr) : Prop := ∃ p l, s.parent a = some p ∧ Seg s.next (s.first p) l (some a)

/-- No list of siblings of `s` is shorter in `s'`. -/
structure Grows (s s' : Tree φ ε) : Prop where
  first : ∀ p a, s.first p = some a → s'.first p = some a
  next : ∀ b a, s.next b = some a → s'.next b = some a
  parent : ∀ a p, s.parent a = some p → s'.parent a = some p

theorem Grows.trans {s₁ s₂ s₃ : Tree φ ε} (one : s₁.Grows s₂) (two : s₂.Grows s₃) : s₁.Grows s₃ :=
  ⟨fun p a h => two.first p a (one.first p a h), fun b a h => two.next b a (one.next b a h),
    fun a p h => two.parent a p (one.parent a p h)⟩

theorem seg_grows {next next' : Addr → Option Addr} {l : List Addr} (grows : ∀ b c, next b = some c → next' b = some c)
    (seg : Seg next start l (some a)) : Seg next' start l (some a) := by
  induction l generalizing start with
  | nil => exact seg
  | cons b l ih =>
      obtain ⟨rfl, rest⟩ := seg
      refine ⟨rfl, ?_⟩
      have further : Seg next' (next b) l (some a) := ih rest
      cases followed : next b with
      | none =>
          rw [followed] at rest
          cases l with
          | nil => cases rest
          | cons c l => cases rest.1
      | some c =>
          rw [grows b c followed]
          rwa [followed] at further

theorem Listed.grows (listed : s.Listed a) (grows : s.Grows s') : s'.Listed a := by
  obtain ⟨p, l, up, seg⟩ := listed
  refine ⟨p, l, grows.parent a p up, ?_⟩
  have further := seg_grows grows.next seg
  cases first : s.first p with
  | none =>
      rw [first] at seg
      cases l with
      | nil => cases seg
      | cons c l => cases seg.1
  | some c =>
      rw [grows.first p c first]
      rwa [first] at further

theorem Listed.allocated (listed : s.Listed a) : (s.node a).isSome := by
  obtain ⟨p, -, up, -⟩ := listed
  rw [Tree.parent] at up
  cases here : s.node a with
  | none =>
      rw [here] at up
      cases up
  | some node => rfl

theorem put_grows (free : s.node new = none) (node : Node φ ε) : s.Grows (s.put new node) := by
  have same : ∀ a, s.node a ≠ none → (s.put new node).node a = s.node a := fun a allocated =>
    put_of_ne (by rintro rfl; exact allocated free) s node
  have kept : ∀ {f : Node φ ε → Option Addr} (a b : Addr), (s.node a).bind f = some b →
      ((s.put new node).node a).bind f = some b := by
    intro f a b link
    rw [same a, link]
    intro gone
    rw [gone] at link
    cases link
  exact ⟨fun p a => kept p a, fun b a => kept b a, fun a p => kept a p⟩

/-! ## The loop over the siblings -/

theorem siblingLoop_found (done : s.siblingLoop stops fuel start = some (some last)) :
    (∃ l, Seg s.next start l (some last)) ∧ ∃ node, s.node last = some node ∧ stops node := by
  induction fuel generalizing start with
  | zero => cases start <;> cases done
  | succ fuel ih =>
      cases start with
      | none => cases done
      | some a =>
          simp only [siblingLoop, Option.bind_eq_bind, Option.bind_eq_some_iff] at done
          obtain ⟨node, here, done⟩ := done
          split_ifs at done with stopped
          · cases done
            exact ⟨⟨[], rfl⟩, node, here, stopped⟩
          · obtain ⟨⟨l, seg⟩, found⟩ := ih done
            refine ⟨⟨a :: l, rfl, ?_⟩, found⟩
            rwa [next_eq here]

theorem siblingLoop_none (done : s.siblingLoop (fun sibling => sibling.nextSibling.isNone) fuel start = some none) :
    start = none := by
  induction fuel generalizing start with
  | zero =>
      cases start with
      | none => rfl
      | some a => cases done
  | succ fuel ih =>
      cases start with
      | none => rfl
      | some a =>
          simp only [siblingLoop, Option.bind_eq_bind, Option.bind_eq_some_iff] at done
          obtain ⟨node, here, done⟩ := done
          split_ifs at done with ends
          · cases done
          · have ended := ih done
            rw [ended] at ends
            exact absurd rfl ends

theorem appendChild_grows (done : s.appendChild p new = some s') :
    s.Grows s' ∧ ∃ l, Seg s'.next (s'.first p) l (some new) := by
  simp only [appendChild, Option.bind_eq_bind, Option.bind_eq_some_iff] at done
  obtain ⟨node, here, found, searched, done⟩ := done
  cases found with
  | none =>
      cases done
      have empty : node.children = none := siblingLoop_none searched
      refine ⟨⟨fun q a first => ?_, fun b a link => ?_, fun a q up => ?_⟩, [], ?_⟩
      · by_cases same : q = p
        · subst same
          rw [first_eq here, empty] at first
          cases first
        · rwa [first_setChildren_of_ne same]
      · rwa [next_setChildren]
      · rwa [parent_congr (setChildren_payload ..)]
      · exact first_setChildren (by rw [here]; rfl) (some new)
  | some last =>
      cases done
      obtain ⟨⟨l, seg⟩, lastNode, hereLast, ends⟩ := siblingLoop_found searched
      have grows : s.Grows (s.setNextSibling last (some new)) := by
        refine ⟨fun q a first => by rwa [first_setNextSibling], fun b a link => ?_, fun a q up => ?_⟩
        · by_cases same : b = last
          · subst same
            rw [next_eq hereLast, Option.isNone_iff_eq_none.mp ends] at link
            cases link
          · rwa [next_setNextSibling_of_ne same]
        · rwa [parent_congr (setNextSibling_payload ..)]
      refine ⟨grows, l ++ [last], ?_⟩
      rw [first_setNextSibling, first_eq here]
      exact seg_append.mpr ⟨some last, seg_grows grows.next seg, rfl, next_setNextSibling (by rw [hereLast]; rfl) (some new)⟩

/-! ## A node that nothing leads to -/

/-- No other node leads to it. -/
structure NoLink (s : Tree φ ε) (a : Addr) : Prop where
  first : ∀ q, q ≠ a → s.first q ≠ some a
  next : ∀ b, b ≠ a → s.next b ≠ some a

theorem NoDangling.noLink (noDangling : s.NoDangling) (free : s.node a = none) : s.NoLink a := by
  have missing : ¬ (s.node a).isSome := by
    rw [free]
    simp
  constructor <;> intro b _ link
  · obtain ⟨node, here, first⟩ := Option.bind_eq_some_iff.mp link
    exact missing (noDangling b node a here (.inl first))
  · obtain ⟨node, here, next⟩ := Option.bind_eq_some_iff.mp link
    exact missing (noDangling b node a here (.inr (.inl next)))

theorem NoLink.put (noLink : s.NoLink a)
    (leads : new ≠ a → node.children ≠ some a ∧ node.nextSibling ≠ some a) : (s.put new node).NoLink a := by
  constructor <;> intro b other
  · by_cases same : b = new
    · subst same
      rw [first_eq (put_self ..)]
      exact (leads other).1
    · rw [Tree.first, put_of_ne same]
      exact noLink.first b other
  · by_cases same : b = new
    · subst same
      rw [next_eq (put_self ..)]
      exact (leads other).2
    · rw [Tree.next, put_of_ne same]
      exact noLink.next b other

theorem NoLink.setChildren {link : Option Addr} (noLink : s.NoLink a) (leads : link ≠ some a) (p : Addr) :
    (s.setChildren p link).NoLink a := by
  refine ⟨fun q other => ?_, fun b other => by rw [next_setChildren]; exact noLink.next b other⟩
  by_cases same : q = p
  · subst same
    intro first
    obtain ⟨node, here, found⟩ := Option.bind_eq_some_iff.mp first
    cases before : s.node q with
    | none => simp [Tree.setChildren, modify, before] at here
    | some old =>
        rw [first_setChildren (by rw [before]; rfl)] at first
        exact leads first
  · rw [first_setChildren_of_ne same]
    exact noLink.first q other

theorem NoLink.setNextSibling {link : Option Addr} (noLink : s.NoLink a) (leads : link ≠ some a) (b : Addr) :
    (s.setNextSibling b link).NoLink a := by
  refine ⟨fun q other => by rw [first_setNextSibling]; exact noLink.first q other, fun c other => ?_⟩
  by_cases same : c = b
  · subst same
    intro next
    obtain ⟨node, here, found⟩ := Option.bind_eq_some_iff.mp next
    cases before : s.node c with
    | none => simp [Tree.setNextSibling, modify, before] at here
    | some old =>
        rw [next_setNextSibling (by rw [before]; rfl)] at next
        exact leads next
  · rw [next_setNextSibling_of_ne same]
    exact noLink.next c other

theorem NoLink.appendChild (noLink : s.NoLink a) (other : new ≠ a) (done : s.appendChild p new = some s') : s'.NoLink a := by
  simp only [Tree.appendChild, Option.bind_eq_bind, Option.bind_eq_some_iff] at done
  obtain ⟨node, -, found, -, done⟩ := done
  have leads : some new ≠ some a := fun same => other (Option.some.inj same)
  cases found with
  | none =>
      cases done
      exact noLink.setChildren leads p
  | some last =>
      cases done
      exact noLink.setNextSibling leads last

theorem seg_to_first {next : Addr → Option Addr} {l : List Addr} (seg : Seg next start l (some a)) :
    ∃ l', Seg next start l' (some a) ∧ a ∉ l' := by
  induction l generalizing start with
  | nil => exact ⟨[], seg, by simp⟩
  | cons b l ih =>
      obtain ⟨rfl, rest⟩ := seg
      by_cases same : b = a
      · exact ⟨[], by rw [same]; rfl, by simp⟩
      · obtain ⟨l', seg', outside⟩ := ih rest
        refine ⟨b :: l', ⟨rfl, seg'⟩, ?_⟩
        rw [List.mem_cons, not_or]
        exact ⟨Ne.symm same, outside⟩

theorem NoLink.notListed (noLink : s.NoLink a) (up : s.parent a = none ∨ s.parent a = some p) (other : p ≠ a) :
    ¬ s.Listed a := by
  rintro ⟨q, l, below, seg⟩
  rcases up with top | up
  · rw [top] at below
    cases below
  · rw [up] at below
    cases below
    obtain ⟨l, seg, outside⟩ := seg_to_first seg
    rcases List.eq_nil_or_concat l with rfl | ⟨init, b, rfl⟩
    · exact noLink.first p other seg
    · obtain ⟨middle, -, rfl, next⟩ := seg_append.mp (by rwa [List.concat_eq_append] at seg)
      refine noLink.next b ?_ next
      rintro rfl
      exact outside (by simp)

end Tree

/-! ## The walk -/

section
variable {V : Volumes φ} {S : Store σ φ ε} {disk : σ} {mode : FileMode} {s₀ s s' : Tree φ ε} {current p new cwd : Addr}
variable {name path : Name} {stack stack' : List Addr} {grants : List (Grant φ ε)} {walk : Walk φ ε} {isLast : Bool} {fuel : Nat}
variable {base calls calls' : List HeapCall}

/-- Between two rounds of the walk: all that was taken is linked. -/
structure Holding (s₀ s : Tree φ ε) (stack : List Addr) (grants : List (Grant φ ε)) : Prop where
  listed : ∀ a ∈ stack, s.Listed a
  nodup : stack.Nodup
  fresh : FreshAnswers s.Free grants
  wellFormed : s₀.WellFormed → s.WellFormed

/-- The last node of the stack is new and on no list. -/
structure Unlisted (s₀ s : Tree φ ε) (p : Addr) (stack : List Addr) (grants : List (Grant φ ε)) : Prop where
  split : ∃ (init : List Addr) (new : Addr) (s₁ : Tree φ ε) (node : Node φ ε), stack = init ++ [new] ∧
    s = s₁.put new node ∧ s₁.node new = none ∧ (node.parent = none ∨ node.parent = some p) ∧ (s₁.node p).isSome ∧
    (∀ a ∈ init, s₁.Listed a) ∧
    (s₀.WellFormed → s₁.WellFormed)
  nodup : stack.Nodup
  fresh : FreshAnswers s.Free grants

def Walk.Accounted (s₀ : Tree φ ε) (mode : FileMode) (base : List HeapCall) : Walk φ ε → List HeapCall → Prop
  | .arrived s _ stack, calls => calls = base ++ kmallocNodes stack ∧ ∃ grants, Holding s₀ s stack grants
  | .create s p _ stack grants, calls =>
      calls = base ++ kmallocNodes stack ∧ doCreateNode mode ∧ Unlisted s₀ s p stack grants
  | .nuke _ _ stack, calls => calls = base ++ kmallocNodes stack ∧ stack.Nodup
  | .leave s _, calls => ∃ stack grants, calls = base ++ kmallocNodes stack ∧ Holding s₀ s stack grants

theorem Holding.notTwice {stale : Node φ ε} {rest : List (Grant φ ε)} (holding : Holding s₀ s stack (some (new, stale) :: rest)) :
    (stack ++ [new]).Nodup := by
  refine List.nodup_append'.mpr ⟨holding.nodup, List.nodup_singleton _, fun a member again => ?_⟩
  obtain rfl := List.mem_singleton.mp again
  have allocated := (holding.listed a member).allocated
  rw [holding.fresh.head.1.1] at allocated
  cases allocated

theorem kmallocNodes_concat (stack : List Addr) (a : Addr) :
    kmallocNodes (stack ++ [a]) = kmallocNodes stack ++ kmallocNodes [a] := by
  rw [kmallocNodes, kmallocNodes, kmallocNodes, List.map_append]

theorem load_arrived (holding : Holding s₀ s stack grants)
    (done : load V S disk mode s p name isLast stack grants = some (.arrived s' new stack')) :
    Holding s₀ s' stack' grants.tail ∧ kmallocNodes stack' = kmallocNodes stack ++ loadCalls stack grants := by
  have shallow : ¬ stack.length ≥ maxAllocation := by
    intro deep
    rw [load, if_pos deep] at done
    cases done
  obtain ⟨new, stale, rest, parentNode, rfl, hereP, ⟨leftover, wrong⟩ | ⟨s₁, base, entry, same, -, -, appended⟩⟩ :=
    load_cases done rfl
  · cases wrong
  · cases same
    have free : s.node new = none := holding.fresh.head.1.1
    obtain ⟨payloads, semaphores⟩ := appendChild_keeps appended
    obtain ⟨grows, l, seg⟩ := Tree.appendChild_grows appended
    have grown := (Tree.put_grows free (base.fill p parentNode entry)).trans grows
    refine ⟨⟨fun a member => ?_, holding.notTwice, (load_keeps holding.fresh payloads semaphores).2, fun wellFormed => ?_⟩, ?_⟩
    · rcases List.mem_append.mp member with old | isNew
      · exact (holding.listed a old).grows grown
      · obtain rfl := List.mem_singleton.mp isNew
        exact ⟨p, l, grows.parent a p (Tree.parent_eq (Tree.put_self ..)), seg⟩
    · exact ((holding.wellFormed wellFormed).load free (by rw [hereP]; rfl) rfl rfl rfl appended).1
    · rw [loadCalls, if_neg shallow, kmallocNodes_concat]
      rfl

theorem load_accounted (holding : Holding s₀ s stack grants)
    (done : load V S disk mode s p name isLast stack grants = some walk) (stops : ∀ s' new stack', walk ≠ .arrived s' new stack') :
    walk.Accounted s₀ mode base (base ++ kmallocNodes stack ++ loadCalls stack grants) := by
  rw [load] at done
  rw [loadCalls]
  by_cases deep : stack.length ≥ maxAllocation
  · rw [if_pos deep] at done ⊢
    cases done
    exact ⟨stack, grants, List.append_nil _, holding⟩
  rw [if_neg deep] at done ⊢
  cases answer : grants.head?.join with
  | none =>
      rw [answer] at done
      cases done
      exact ⟨List.append_nil _, holding.nodup⟩
  | some found =>
      obtain ⟨new, stale⟩ := found
      obtain ⟨rest, rfl⟩ := exists_cons_of_head answer
      have free : s.node new = none := holding.fresh.head.1.1
      have nodup := holding.notTwice
      have taken : base ++ kmallocNodes stack ++ kmallocNodes [new] = base ++ kmallocNodes (stack ++ [new]) := by
        rw [kmallocNodes_concat, List.append_assoc]
      simp only [answer, Option.bind_eq_bind, Option.bind_eq_some_iff] at done
      obtain ⟨parentNode, hereP, done⟩ := done
      rcases found : nodeFind V S disk p parentNode name { stale with parent := none } with ⟨err, node⟩
      simp only [found] at done
      split_ifs at done with missing creates
      · cases done
        refine ⟨taken, creates, ⟨stack, new, s, node, rfl, rfl, free, nodeFind_parent rfl found, ?_, holding.listed,
          holding.wellFormed⟩, nodup, (load_keeps holding.fresh (fun _ => rfl) rfl).2⟩
        rw [hereP]
        rfl
      iterate 3
        · cases done
          exact ⟨taken, nodup⟩
      · obtain ⟨s', -, done⟩ := Option.bind_eq_some_iff.mp done
        cases done
        exact absurd rfl (stops _ _ _)

theorem loggedLoop_accounted (holding : Holding s₀ s stack grants) (logged : calls = base ++ kmallocNodes stack)
    (done : loggedLoop V S disk mode fuel s current stack path grants calls = some (walk, calls')) :
    walk.Accounted s₀ mode base calls' := by
  induction fuel generalizing s current stack path grants calls with
  | zero => cases done
  | succ fuel ih =>
      rw [loggedLoop] at done
      cases token : strtok path with
      | none =>
          rw [token] at done
          cases done
          exact ⟨logged, grants, holding⟩
      | some found =>
          obtain ⟨name, rest⟩ := found
          simp only [token] at done
          split_ifs at done with dot dotdot
          · obtain ⟨b, followed, done⟩ := Option.bind_eq_some_iff.mp done
            exact ih holding logged done
          · simp only [Option.bind_eq_bind, Option.bind_eq_some_iff] at done
            obtain ⟨node, here, b, followed, done⟩ := done
            exact ih holding logged done
          · simp only [Option.bind_eq_bind, Option.bind_eq_some_iff] at done
            obtain ⟨node, here, child, searched, done⟩ := done
            cases child with
            | some a =>
                obtain ⟨b, followed, done⟩ := Option.bind_eq_some_iff.mp done
                exact ih holding logged done
            | none =>
                obtain ⟨walk', loaded, done⟩ := Option.bind_eq_some_iff.mp done
                cases walk' with
                | arrived s' new stack' =>
                    obtain ⟨b, followed, done⟩ := Option.bind_eq_some_iff.mp done
                    obtain ⟨holding', taken⟩ := load_arrived holding loaded
                    refine ih holding' ?_ done
                    rw [logged, taken, List.append_assoc]
                | create | nuke | leave =>
                    cases done
                    rw [logged]
                    exact load_accounted holding loaded (by simp)

/-! ## The end of the function -/

/-- From the end of the walk on: whether an entry is created. -/
def Walk.creates [DecidableEq φ] (V : Volumes φ) (S : Store σ φ ε) (disk : σ) (createFlags : BitVec 32) : Walk φ ε → Bool
  | .create s parent name _ grants =>
      match grants.head?.join, s.node parent with
      | some _, some node => (createEntry V S disk node name createFlags).1.toBool
      | _, _ => false
  | _ => false

/-- Each of the nodes is on a list, or was freed once. -/
def Kept (s : Tree φ ε) (taken freed : List Addr) : Prop :=
  ∀ a ∈ taken, freed.count a = 1 ∨ freed.count a = 0 ∧ s.Listed a

variable {createFlags : BitVec 32} {found : Found σ φ ε} {err : FsErr} {taken freed : List Addr}

theorem kept_of_listed (listed : ∀ a ∈ stack, s.Listed a) : Kept s stack [] := fun a member =>
  .inr ⟨List.count_nil, listed a member⟩

theorem kept_of_freed (nodup : stack.Nodup) : Kept s stack stack := fun _ member =>
  .inl (List.count_eq_one_of_mem nodup member)

theorem loggedFail_calls (done : loggedFail disk s err stack calls = some (found, calls')) :
    calls' = calls ++ kfreeNodes stack := by
  simp only [loggedFail, Option.bind_eq_bind, Option.bind_eq_some_iff] at done
  obtain ⟨r, -, done⟩ := done
  cases done
  rfl

theorem loggedFinish_kept (nodup : stack.Nodup) (listed : ∀ a ∈ stack, s.Listed a)
    (done : loggedFinish disk mode s current stack calls = some (found, calls')) :
    ∃ freed, calls' = calls ++ kfreeNodes freed ∧ Kept found.tree stack freed := by
  simp only [loggedFinish, Option.bind_eq_bind, Option.bind_eq_some_iff] at done
  obtain ⟨node, -, done⟩ := done
  split_ifs at done
  · exact ⟨stack, loggedFail_calls done, kept_of_freed nodup⟩
  · cases done
    exact ⟨[], (List.append_nil _).symm, kept_of_listed listed⟩

theorem loggedFinish_creates (creates : doCreateNode mode)
    (done : loggedFinish disk mode s current stack calls = some (found, calls')) : found.tree = s ∧ calls' = calls := by
  have notOnlydir : ¬ mode.has fileOpenOnlydir := by
    rw [doCreateNode, Bool.and_eq_true, Bool.not_eq_true'] at creates
    rw [creates.2]
    decide
  simp only [loggedFinish, Option.bind_eq_bind, Option.bind_eq_some_iff] at done
  obtain ⟨node, -, done⟩ := done
  rw [if_neg fun exit => notOnlydir exit.1] at done
  cases done
  exact ⟨rfl, rfl⟩

theorem loggedRest_kept [DecidableEq φ] (accounted : walk.Accounted s₀ mode base calls)
    (plain : ¬ walk.creates V S disk createFlags)
    (done : loggedRest V S disk mode createFlags calls walk = some (found, calls')) :
    ∃ taken freed, calls' = base ++ kmallocNodes taken ++ kfreeNodes freed ∧ Kept found.tree taken freed := by
  cases walk with
  | arrived s current stack =>
      obtain ⟨rfl, grants, holding⟩ := accounted
      obtain ⟨freed, rfl, kept⟩ := loggedFinish_kept holding.nodup holding.listed done
      exact ⟨stack, freed, rfl, kept⟩
  | nuke s err stack =>
      obtain ⟨rfl, nodup⟩ := accounted
      exact ⟨stack, stack, loggedFail_calls done, kept_of_freed nodup⟩
  | leave s err =>
      obtain ⟨stack, grants, rfl, holding⟩ := accounted
      cases done
      exact ⟨stack, [], (List.append_nil _).symm, kept_of_listed holding.listed⟩
  | create s p name stack grants =>
      obtain ⟨rfl, -, unlisted⟩ := accounted
      rw [loggedRest, loggedCreate] at done
      cases answer : grants.head?.join with
      | none =>
          rw [answer] at done
          exact ⟨stack, stack, loggedFail_calls done, kept_of_freed unlisted.nodup⟩
      | some grant =>
          obtain ⟨new, stale⟩ := grant
          obtain ⟨rest, rfl⟩ := exists_cons_of_head answer
          simp only [answer, Option.bind_eq_bind, Option.bind_eq_some_iff] at done
          obtain ⟨parentNode, here, done⟩ := done
          rcases created : createEntry V S disk parentNode name createFlags with ⟨err | entry, disk'⟩
          · simp only [created] at done
            have notTwice : new ∉ stack := by
              obtain ⟨init, last, s₁, node, rfl, rfl, free, -, -, listed, -⟩ := unlisted.split
              have unused := unlisted.fresh.head.1.1
              intro member
              rcases List.mem_append.mp member with inside | isLast
              · have allocated := (listed new inside).allocated
                rw [← (Tree.put_free free node allocated).2, unused] at allocated
                cases allocated
              · rw [List.mem_singleton.mp isLast, Tree.put_self] at unused
                cases unused
            refine ⟨stack ++ [new], new :: stack, ?_, fun a member => .inl (List.count_eq_one_of_mem ?_ ?_)⟩
            · rw [loggedFail_calls done, kmallocNodes_concat]
              simp [kfreeNodes]
            · exact List.nodup_cons.mpr ⟨notTwice, unlisted.nodup⟩
            · simp only [List.mem_append, List.mem_singleton] at member
              exact List.mem_cons.mpr member.symm
          · refine absurd ?_ plain
            rw [Walk.creates, answer, here]
            dsimp only
            rw [created]
            rfl

theorem loggedRest_leaks [DecidableEq φ] (wellFormed : s₀.WellFormed) (accounted : walk.Accounted s₀ mode base calls)
    (creates : walk.creates V S disk createFlags)
    (done : loggedRest V S disk mode createFlags calls walk = some (found, calls')) :
    ∃ taken, calls' = base ++ kmallocNodes taken ∧ ∃ a ∈ taken, ¬ found.tree.Listed a := by
  cases walk with
  | arrived | nuke | leave => cases creates
  | create s p name stack grants =>
      obtain ⟨rfl, mayCreate, unlisted⟩ := accounted
      obtain ⟨init, last, s₁, node, rfl, rfl, free, up, insideP, -, kept⟩ := unlisted.split
      rw [loggedRest, loggedCreate] at done
      rw [Walk.creates] at creates
      cases answer : grants.head?.join with
      | none =>
          rw [answer] at creates
          cases creates
      | some grant =>
          obtain ⟨new, stale⟩ := grant
          obtain ⟨rest, rfl⟩ := exists_cons_of_head answer
          simp only [answer, Option.bind_eq_bind, Option.bind_eq_some_iff] at done
          obtain ⟨parentNode, here, done⟩ := done
          simp only [answer, here] at creates
          rcases created : createEntry V S disk parentNode name createFlags with ⟨err | entry, disk'⟩
          · rw [created] at creates
            cases creates
          · simp only [created, Option.bind_eq_some_iff] at done
            obtain ⟨s₂, appended, done⟩ := done
            obtain ⟨same, rfl⟩ := loggedFinish_creates mayCreate done
            have other : new ≠ last := by
              rintro rfl
              have unused := unlisted.fresh.head.1.1
              rw [Tree.put_self] at unused
              cases unused
            have notLast : p ≠ last := (Tree.put_free free node insideP).1
            have noLink : (s₂.setNextSibling new none).NoLink last := by
              refine Tree.NoLink.setNextSibling (Tree.NoLink.appendChild (Tree.NoLink.put ?_ ?_) other appended) (by simp) new
              · exact ((kept wellFormed).noDangling.noLink free).put fun wrong => absurd rfl wrong
              · exact fun _ => ⟨by simp [Node.fill], by simp [Node.fill]⟩
            have parent : (s₂.setNextSibling new none).parent last = node.parent := by
              rw [Tree.parent_congr (Tree.setNextSibling_payload ..), Tree.parent_congr ((appendChild_keeps appended).1 last),
                Tree.parent, Tree.put_of_ne other.symm, Tree.put_self]
              rfl
            refine ⟨init ++ [last] ++ [new], ?_, last, by simp, ?_⟩
            · rw [kmallocNodes_concat (init ++ [last]), List.append_assoc]
            · rw [same]
              exact noLink.notListed (by rwa [parent]) notLast

end

/-! ## The whole function -/

/-- When the function is back: each node taken is on a list or was freed once, and so were the buffers. -/
structure LeaksNothing (s : Tree φ ε) (calls : List HeapCall) : Prop where
  nodes : ∀ a, .kmalloc (.node a) ∈ calls →
    calls.count (.kfree (.node a)) = 1 ∨ calls.count (.kfree (.node a)) = 0 ∧ s.Listed a
  pathcpy : .kmalloc .pathcpy ∈ calls → calls.count (.kfree .pathcpy) = 1
  searchStack : .kmalloc .searchStack ∈ calls → calls.count (.kfree .searchStack) = 1

theorem count_kmallocNodes (l : List Addr) (block : HeapBlock) : (kmallocNodes l).count (.kfree block) = 0 := by
  rw [kmallocNodes, List.count_eq_zero]
  simp

theorem count_kfreeNodes (l : List Addr) (a : Addr) : (kfreeNodes l).count (.kfree (.node a)) = l.count a :=
  List.count_map_of_injective l (fun a => HeapCall.kfree (.node a)) (fun _ _ same => by cases same; rfl) a

theorem leaksNothing_iff {s : Tree φ ε} (taken freed : List Addr) :
    LeaksNothing s ([.kmalloc .pathcpy, .kmalloc .searchStack] ++ kmallocNodes taken ++ kfreeNodes freed ++
      [.kfree .searchStack, .kfree .pathcpy]) ↔ Kept s taken freed := by
  have member : ∀ a, HeapCall.kmalloc (.node a) ∈ kmallocNodes taken ↔ a ∈ taken := fun a => by simp [kmallocNodes]
  have notFreed : ∀ a, HeapCall.kmalloc (.node a) ∉ kfreeNodes freed := fun a => by simp [kfreeNodes]
  have buffers : ∀ block, (∀ a, block ≠ .node a) → (kfreeNodes freed).count (.kfree block) = 0 := fun block isBuffer => by
    rw [kfreeNodes, List.count_eq_zero]
    simpa using fun a _ => (isBuffer a).symm
  constructor
  · intro leaks a isTaken
    have once := leaks.nodes a (by simp [member, isTaken])
    simpa [List.count_append, count_kmallocNodes, count_kfreeNodes] using once
  · intro kept
    refine ⟨fun a asked => ?_, fun _ => ?_, fun _ => ?_⟩
    · have isTaken : a ∈ taken := by simpa [member, notFreed] using asked
      simpa [List.count_append, count_kmallocNodes, count_kfreeNodes] using kept a isTaken
    · simp [List.count_append, count_kmallocNodes, buffers]
    · simp [List.count_append, count_kmallocNodes, buffers]

section
variable {V : Volumes φ} {S : Store σ φ ε} {disk : σ} {mode : FileMode} {s : Tree φ ε} {cwd : Addr} {path : Name}
variable {createFlags : BitVec 32} {kmalloc : Kmalloc φ ε} {found : Found σ φ ε} {calls : List HeapCall}

/-- The components but the last are found, the last is not, neither in the tree nor on the storage, and an
entry for it is created. -/
def creates [DecidableEq φ] (V : Volumes φ) (S : Store σ φ ε) (disk : σ) (s : Tree φ ε) (path : Name) (cwd : Addr)
    (mode : FileMode) (createFlags : BitVec 32) (kmalloc : Kmalloc φ ε) : Bool :=
  kmalloc.pathcpy && kmalloc.searchStack &&
    (walkPath V S disk mode s path cwd kmalloc.nodes).any (Walk.creates V S disk createFlags)

/-- A lookup leaks nothing unless it creates an entry; then it leaks, in a well-formed tree, the node it
took to look for the entry. -/
theorem lookup_leaks_iff_creates [DecidableEq φ] (fresh : FreshAnswers s.Free kmalloc.nodes)
    (done : loggedLookup V S disk s path cwd mode createFlags kmalloc = some (found, calls)) :
    (¬ creates V S disk s path cwd mode createFlags kmalloc → LeaksNothing found.tree calls) ∧
      (s.WellFormed → creates V S disk s path cwd mode createFlags kmalloc → ¬ LeaksNothing found.tree calls) := by
  rw [loggedLookup] at done
  by_cases copied : kmalloc.pathcpy
  swap
  · rw [if_pos copied] at done
    cases done
    exact ⟨fun _ => ⟨by simp, by simp, by simp⟩, fun _ wrong => by simp [creates, copied] at wrong⟩
  by_cases stacked : kmalloc.searchStack
  swap
  · rw [if_neg (not_not.mpr copied), if_pos stacked] at done
    cases done
    exact ⟨fun _ => ⟨by simp, by simp, by simp⟩, fun _ wrong => by simp [creates, stacked] at wrong⟩
  · rw [if_neg (not_not.mpr copied), if_neg (not_not.mpr stacked)] at done
    simp only [Option.bind_eq_bind, Option.bind_eq_some_iff, Prod.exists] at done
    obtain ⟨walk, logged, walked, rest, calls', ended, done⟩ := done
    cases done
    have accounted : walk.Accounted s mode [.kmalloc .pathcpy, .kmalloc .searchStack] logged := by
      have holding : Holding s s [] kmalloc.nodes := ⟨by simp, List.nodup_nil, fresh, id⟩
      rw [loggedPath] at walked
      split_ifs at walked <;> exact loggedLoop_accounted holding (List.append_nil _).symm walked
    have erased : walkPath V S disk mode s path cwd kmalloc.nodes = some walk := by
      rw [← loggedPath_erase, walked]
      rfl
    have same : creates V S disk s path cwd mode createFlags kmalloc = walk.creates V S disk createFlags := by
      simp [creates, erased, copied, stacked]
    rw [same]
    constructor
    · intro plain
      obtain ⟨taken, freed, rfl, kept⟩ := loggedRest_kept accounted plain ended
      exact (leaksNothing_iff taken freed).mpr kept
    · intro wellFormed creates leaks
      obtain ⟨taken, rfl, a, member, notListed⟩ := loggedRest_leaks wellFormed accounted creates ended
      have kept := (leaksNothing_iff taken []).mp (by simpa [kfreeNodes] using leaks)
      rcases kept a member with once | ⟨-, listed⟩
      · cases once
      · exact notListed listed

end

/-! ## A file in a root directory -/

-- the root directory with `a` and `b`, where files can be created
def growingDirectory : Store Unit Unit Bool :=
  { twoDirectories with nodeCreate := fun _ _ _ name flags => (.ok ⟨name, flags, none, false⟩, ()) }

def loggedOpen (path : Name) (mode : FileMode) : Option (Found Unit Unit Bool × List HeapCall) :=
  loggedLookup rootVolume growingDirectory () rootOnly path 1 mode 0#32 threeBlocks

/-- `/a/b`: `a` is linked, and what was taken for `b` is freed with it. -/
theorem lookup_leaks_iff_creates_below :
    ∃ found calls, loggedOpen [47, 97, 47, 98] fileOpenRead = some (found, calls) ∧ calls.length = 8 ∧
      LeaksNothing found.tree calls := by
  have ends : (loggedOpen [47, 97, 47, 98] fileOpenRead).map (fun r => r.2.length) = some 8 := by decide
  obtain ⟨⟨found, calls⟩, done, length⟩ := Option.map_eq_some_iff.mp ends
  exact ⟨found, calls, done, length, (lookup_leaks_iff_creates threeBlocks_fresh done).1 (by decide)⟩

/-- `/c` is created in the second block; the first one is lost. -/
theorem created_lookup_leaks :
    ∃ found calls, loggedOpen [47, 99] fileOpenCreate = some (found, calls) ∧ found.node = some 3 ∧
      ¬ LeaksNothing found.tree calls := by
  have ends : (loggedOpen [47, 99] fileOpenCreate).map (fun r => (r.1.node, r.2, r.1.tree.parent 2, r.1.tree.first 1,
      r.1.tree.next 3)) = some (some 3, [.kmalloc .pathcpy, .kmalloc .searchStack, .kmalloc (.node 2), .kmalloc (.node 3),
        .kfree .searchStack, .kfree .pathcpy], some 1, some 3, none) := by decide
  obtain ⟨⟨found, calls⟩, done, shape⟩ := Option.map_eq_some_iff.mp ends
  simp only [Prod.mk.injEq] at shape
  obtain ⟨node, rfl, parent, first, next⟩ := shape
  refine ⟨found, _, done, node, fun leaks => ?_⟩
  rcases leaks.nodes 2 (by decide) with once | ⟨-, p, l, up, seg⟩
  · revert once
    decide
  · rw [parent] at up
    cases up
    rw [first] at seg
    cases l with
    | nil => cases seg
    | cons b l =>
        obtain ⟨same, rest⟩ := seg
        cases same
        rw [next] at rest
        cases l with
        | nil => cases rest
        | cons c l => cases rest.1

end Kerosene.Vfs
