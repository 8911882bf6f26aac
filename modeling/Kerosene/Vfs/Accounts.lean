import Kerosene.Lib.Grants
import Kerosene.Vfs.Links

/-!
# Reference counts along lookup and cleanup

`pin` says how many references a node has that no descriptor stands for, and `opened` how many
descriptors are open on it.
-/

namespace Kerosene.Vfs
open Lib Ramfs
variable {σ φ ε : Type}

/-! ## What a walk can do -/

-- `kmalloc` hands out blocks that hold neither a node nor a semaphore
def Tree.Free (s : Tree φ ε) (a : Addr) : Prop := s.node a = none ∧ s.semaphore a = none

namespace Walk

def tree : Walk φ ε → Tree φ ε
  | arrived s _ _ | create s _ _ _ _ | nuke s _ _ | leave s _ => s

/-- Where a walk that goes on stands: at its node, or at the directory to create one in. -/
def place : Walk φ ε → Option Addr
  | arrived _ current _ => some current
  | create _ parent _ _ _ => some parent
  | _ => none

-- the nodes that came from a filesystem; the last one of a search in vain is on no list
def loaded : Walk φ ε → List Addr
  | arrived _ _ stack => stack
  | create _ _ _ stack _ => stack.dropLast
  | _ => []

def grants : Walk φ ε → List (Grant φ ε)
  | create _ _ _ _ grants => grants
  | _ => []

-- no node that a walk loads is a mountpoint
def Plain (walk : Walk φ ε) : Prop :=
  ∀ a ∈ walk.loaded, ∀ node, walk.tree.node a = some node → ¬ isMountpoint node.flags

end Walk

-- `fs->node_create` gives files, which are no mountpoints
def Store.PlainFiles (S : Store σ φ ε) : Prop :=
  ∀ disk fs data name entry disk', S.nodeCreate disk fs data name 0#32 = (.ok entry, disk') → ¬ isMountpoint entry.flags

section
variable {V : Volumes φ} {S : Store σ φ ε} {disk : σ} {mode : FileMode} {s s' : Tree φ ε} {parentNode retNode node : Node φ ε}
variable {p current place : Addr} {name path : Name} {stack : List Addr} {grants : List (Grant φ ε)} {walk : Walk φ ε}
variable {isLast : Bool} {fuel : Nat}

theorem findLoop_success {lastErr : FsErr} {entries : List (Entry ε)} (isError : lastErr ≠ .success)
    (done : findLoop V p parentNode name lastErr retNode entries = (.success, node)) :
    ∃ base : Node φ ε, ∃ entry ∈ entries, sameName V parentNode.fs name entry.name ∧ node = base.fill p parentNode entry := by
  induction entries generalizing retNode with
  | nil =>
      rw [findLoop] at done
      split_ifs at done with notEof
      · exact absurd (congrArg Prod.fst done) isError
      · cases done
  | cons entry entries ih =>
      rw [findLoop] at done
      split_ifs at done with same
      · cases done
        exact ⟨retNode, entry, List.mem_cons_self, same, rfl⟩
      · obtain ⟨base, found, member, rest⟩ := ih done
        exact ⟨base, found, List.mem_cons_of_mem _ member, rest⟩

theorem nodeFind_success (done : nodeFind V S disk p parentNode name retNode = (.success, node)) :
    ∃ base : Node φ ε, ∃ entry ∈ (S.iterate disk parentNode.fs parentNode.data).entries,
      sameName V parentNode.fs name entry.name ∧ node = base.fill p parentNode entry := by
  rw [nodeFind] at done
  split_ifs at done
  · exact findLoop_success (Listing.isError _) done
  · cases done

theorem load_cases (done : load V S disk mode s p name isLast stack grants = some walk) (goes : walk.place = some place) :
    ∃ new stale rest parentNode, grants = some (new, stale) :: rest ∧ s.node p = some parentNode ∧
      ((∃ leftover, walk = .create (s.put new leftover) p name (stack ++ [new]) rest) ∨
        ∃ (s' : Tree φ ε) (base : Node φ ε) (entry : Entry ε), walk = .arrived s' new (stack ++ [new]) ∧
          entry ∈ (S.iterate disk parentNode.fs parentNode.data).entries ∧ sameName V parentNode.fs name entry.name ∧
          (s.put new (base.fill p parentNode entry)).appendChild p new = some s') := by
  rw [load] at done
  by_cases deep : stack.length ≥ maxAllocation
  · rw [if_pos deep] at done
    cases done
    cases goes
  rw [if_neg deep] at done
  cases answer : grants.head?.join with
  | none =>
      rw [answer] at done
      cases done
      cases goes
  | some found =>
      obtain ⟨new, stale⟩ := found
      obtain ⟨rest, rfl⟩ := exists_cons_of_head answer
      rw [answer] at done
      cases hereP : s.node p with
      | none =>
          rw [hereP] at done
          cases done
      | some parentNode =>
          refine ⟨new, stale, rest, parentNode, rfl, rfl, ?_⟩
          rcases found : nodeFind V S disk p parentNode name { stale with parent := none } with ⟨err, node⟩
          simp only [hereP, found, Option.bind_eq_bind, Option.bind_some, List.tail_cons] at done
          by_cases missing : err = .notFound ∧ isLast
          · rw [if_pos missing] at done
            by_cases creates : doCreateNode mode
            · rw [if_pos creates] at done
              cases done
              exact .inl ⟨node, rfl⟩
            · rw [if_neg creates] at done
              cases done
              cases goes
          rw [if_neg missing] at done
          by_cases failed : err ≠ .success
          · rw [if_pos failed] at done
            cases done
            cases goes
          rw [if_neg failed] at done
          rw [not_not] at failed
          subst failed
          by_cases exclusive : mode.has fileOpenExclusive ∧ isLast
          · rw [if_pos exclusive] at done
            cases done
            cases goes
          rw [if_neg exclusive, Option.bind_eq_some_iff] at done
          obtain ⟨s', appended, done⟩ := done
          cases done
          obtain ⟨base, entry, listed, same, rfl⟩ := nodeFind_success found
          exact .inr ⟨s', base, entry, rfl, listed, same, appended⟩

theorem appendChild_keeps {new : Addr} (done : s.appendChild p new = some s') :
    (∀ a, s'.payload a = s.payload a) ∧ s'.semaphore = s.semaphore := by
  simp only [Tree.appendChild, Option.bind_eq_bind, Option.bind_eq_some_iff] at done
  obtain ⟨node, -, last, -, done⟩ := done
  cases last with
  | none =>
      cases done
      exact ⟨fun a => s.setChildren_payload .., rfl⟩
  | some last =>
      cases done
      exact ⟨fun a => s.setNextSibling_payload .., rfl⟩

theorem load_keeps {new : Addr} {stale : Node φ ε} {rest : List (Grant φ ε)}
    (fresh : FreshAnswers s.Free (some (new, stale) :: rest))
    (same : ∀ a, s'.payload a = (s.put new node).payload a) (semaphores : s'.semaphore = s.semaphore) :
    (∀ a, (s.node a).isSome → s'.payload a = s.payload a) ∧ FreshAnswers s'.Free rest := by
  have others : ∀ a, a ≠ new → s'.payload a = s.payload a := fun a other => by
    rw [same a, Tree.payload_congr (Tree.put_of_ne other ..)]
  refine ⟨fun a allocated => others a ?_, fresh.take fun a other free => ⟨?_, ?_⟩⟩
  · rintro rfl
    rw [fresh.head.1.1] at allocated
    cases allocated
  · rw [← Option.not_isSome_iff_eq_none, Tree.isSome_congr (others a other), free.1]
    simp
  · rw [semaphores, free.2]

theorem walkLoop_cases (done : walkLoop V S disk mode (fuel + 1) s current stack path grants = some walk) :
    walk = .arrived s current stack ∨
      ∃ name rest, strtok path = some (name, rest) ∧
        ((∃ node a b, s.node current = some node ∧ s.followMount a = some b ∧
            (a = current ∨ node.parent = some a ∨
              s.siblingWhere (fun child => child.name == name) node.children = some (some a)) ∧
            walkLoop V S disk mode fuel s b stack rest grants = some walk) ∨
          (∃ s' stack' new b, load V S disk mode s current name rest.isEmpty stack grants = some (.arrived s' new stack') ∧
            s'.followMount new = some b ∧ walkLoop V S disk mode fuel s' b stack' rest grants.tail = some walk) ∨
          load V S disk mode s current name rest.isEmpty stack grants = some walk) := by
  rw [walkLoop] at done
  cases token : strtok path with
  | none =>
      rw [token] at done
      cases done
      exact .inl rfl
  | some found =>
      obtain ⟨name, rest⟩ := found
      refine .inr ⟨name, rest, rfl, ?_⟩
      simp only [token] at done
      split_ifs at done with dot dotdot
      · simp only [Option.bind_eq_bind, Option.bind_eq_some_iff] at done
        obtain ⟨b, followed, done⟩ := done
        obtain ⟨node, here, -⟩ := Option.bind_eq_some_iff.mp followed
        exact .inl ⟨node, current, b, here, followed, .inl rfl, done⟩
      · simp only [Option.bind_eq_bind, Option.bind_eq_some_iff] at done
        obtain ⟨node, here, b, followed, done⟩ := done
        refine .inl ⟨node, _, b, here, followed, ?_, done⟩
        cases node.parent with
        | none => exact .inl rfl
        | some p => exact .inr (.inl rfl)
      · simp only [Option.bind_eq_bind, Option.bind_eq_some_iff] at done
        obtain ⟨node, here, child, searched, done⟩ := done
        cases child with
        | some a =>
            simp only [Option.bind_eq_some_iff] at done
            obtain ⟨b, followed, done⟩ := done
            exact .inl ⟨node, a, b, here, followed, .inr (.inr searched), done⟩
        | none =>
            simp only [Option.bind_eq_some_iff] at done
            obtain ⟨loaded, load, done⟩ := done
            cases loaded with
            | arrived s' new stack' =>
                simp only [Option.bind_eq_some_iff] at done
                obtain ⟨b, followed, done⟩ := done
                exact .inr (.inl ⟨s', stack', new, b, load, followed, done⟩)
            | create | nuke | leave =>
                cases done
                exact .inr (.inr load)

-- the nodes of a walk stay what they were, but for their lists
theorem walkLoop_keeps (fresh : FreshAnswers s.Free grants)
    (done : walkLoop V S disk mode fuel s current stack path grants = some walk) (goes : walk.place = some place) :
    stack <+: walk.loaded ∧ ∀ a, (s.node a).isSome → walk.tree.payload a = s.payload a := by
  induction fuel generalizing s current stack path grants with
  | zero => cases done
  | succ fuel ih =>
      rcases walkLoop_cases done with rfl | ⟨name, rest, -, ⟨node, a, b, -, -, -, done⟩ |
        ⟨s', stack', new, b, load, -, done⟩ | load⟩
      · exact ⟨List.prefix_refl _, fun _ _ => rfl⟩
      · exact ih fresh done
      · obtain ⟨new, stale, grants, parentNode, rfl, -, ⟨leftover, wrong⟩ | ⟨s₁, base, entry, same, -, -, appended⟩⟩ :=
          load_cases load rfl
        · cases wrong
        · cases same
          obtain ⟨payloads, semaphores⟩ := appendChild_keeps appended
          obtain ⟨kept, fresh'⟩ := load_keeps fresh payloads semaphores
          obtain ⟨grows, keeps⟩ := ih fresh' done
          refine ⟨(List.prefix_append _ _).trans grows, fun a allocated => ?_⟩
          rw [keeps a (by rw [Tree.isSome_congr (kept a allocated)]; exact allocated), kept a allocated]
      · obtain ⟨new, stale, grants, parentNode, rfl, -, ⟨leftover, rfl⟩ | ⟨s₁, base, entry, rfl, -, -, appended⟩⟩ :=
          load_cases load goes
        · obtain ⟨kept, -⟩ := load_keeps fresh (fun _ => rfl) rfl
          refine ⟨?_, kept⟩
          rw [Walk.loaded, List.dropLast_concat]
        · obtain ⟨payloads, semaphores⟩ := appendChild_keeps appended
          exact ⟨List.prefix_append _ _, (load_keeps fresh payloads semaphores).1⟩

end

structure Accounts (V : Volumes φ) (pin opened : Addr → Nat) (s : Tree φ ε) (member : Set Addr) (kids : Addr → List Addr)
    (depth : Addr → Nat) : Prop extends Linked V s member kids depth where
  refcount : ∀ a ∈ member, ∀ node, s.node a = some node → node.refcount = pin a + opened a
  pinned : ∀ a, 0 < pin a → a ∈ member
  isOpen : ∀ a, 0 < opened a → a ∈ member
  root : ∀ f, 0 < pin (V.root f)
  mount : ∀ a ∈ member, ∀ node, s.node a = some node → isMountpoint node.flags → ∀ t, node.mountTarget = some t → 0 < pin t

namespace Accounts
variable {V : Volumes φ} {pin opened : Addr → Nat} {s s' : Tree φ ε} {member : Set Addr} {kids : Addr → List Addr}
variable {depth : Addr → Nat} {a b p : Addr} {node : Node φ ε}

section
variable (accounts : Accounts V pin opened s member kids depth)
include accounts

theorem rebuild {member' : Set Addr} {kids' : Addr → List Addr} {depth' : Addr → Nat}
    (linked : Linked V s' member' kids' depth') (payloads : ∀ a ∈ member', a ∈ member → s'.payload a = s.payload a)
    (pinned : ∀ a, 0 < pin a → a ∈ member') (isOpen : ∀ a, 0 < opened a → a ∈ member')
    (new : ∀ a ∈ member', a ∉ member → ∀ node, s'.node a = some node → node.refcount = 0 ∧ ¬ isMountpoint node.flags) :
    Accounts V pin opened s' member' kids' depth' := by
  refine ⟨linked, fun a inside node here => ?_, pinned, isOpen, accounts.root, fun a inside node here isMount t target => ?_⟩
  · by_cases old : a ∈ member
    · obtain ⟨before, found, same⟩ := Tree.node_of_payload (payloads a inside old) here
      rw [same]
      exact accounts.refcount a old before found
    · have unpinned : pin a = 0 := Nat.eq_zero_of_not_pos fun positive => old (accounts.pinned a positive)
      have closed : opened a = 0 := Nat.eq_zero_of_not_pos fun positive => old (accounts.isOpen a positive)
      rw [(new a inside old node here).1, unpinned, closed]
      rfl
  · by_cases old : a ∈ member
    · obtain ⟨before, found, same⟩ := Tree.node_of_payload (payloads a inside old) here
      rw [same] at isMount target
      exact accounts.mount a old before found isMount t target
    · exact absurd isMount (new a inside old node here).2

theorem congr {t : Tree φ ε} (same : ∀ a ∈ member, t.node a = s.node a) : Accounts V pin opened t member kids depth := by
  have payloads : ∀ a ∈ member, t.payload a = s.payload a := fun a inside => Tree.payload_congr (same a inside)
  refine accounts.rebuild (accounts.toLinked.congr (fun a inside => ?_) (fun a inside => ?_) payloads)
    (fun a inside _ => payloads a inside) accounts.pinned accounts.isOpen fun a inside old => absurd inside old
  · rw [Tree.first, same a inside, Tree.first]
  · rw [Tree.next, same a inside, Tree.next]

theorem addRefcount {opened' : Addr → Nat} {n : Int} (inside : a ∈ member) (others : ∀ b, b ≠ a → opened' b = opened b)
    (changed : (opened' a : Int) = opened a + n) : Accounts V pin opened' (s.addRefcount a n) member kids depth := by
  obtain ⟨node, here⟩ := Option.isSome_iff_exists.mp (accounts.allocated a inside)
  have self : (s.addRefcount a n).node a = some { node with refcount := node.refcount + n } := Tree.modify_self here _
  have other : ∀ b, b ≠ a → (s.addRefcount a n).node b = s.node b := fun b other => Tree.modify_of_ne other ..
  have shape : ∀ {α : Type} (f : Node φ ε → α), f { node with refcount := node.refcount + n } = f node →
      ∀ b, ((s.addRefcount a n).node b).map f = (s.node b).map f := by
    intro α f same b
    by_cases isA : b = a
    · subst isA
      rw [self, here, Option.map_some, Option.map_some, same]
    · rw [other b isA]
  have bound : ∀ f : Node φ ε → Option Addr, f { node with refcount := node.refcount + n } = f node →
      ∀ b, ((s.addRefcount a n).node b).bind f = (s.node b).bind f := by
    intro f same b
    by_cases isA : b = a
    · subst isA
      rw [self, here, Option.bind_some, Option.bind_some, same]
    · rw [other b isA]
  have known : ∀ b ∈ member, ∀ node', (s.addRefcount a n).node b = some node' → ∃ before, s.node b = some before ∧
      node'.flags = before.flags ∧ node'.mountTarget = before.mountTarget ∧
      node'.refcount = before.refcount + if b = a then n else 0 := by
    intro b _ node' found
    by_cases isA : b = a
    · subst isA
      rw [self] at found
      cases found
      exact ⟨node, here, rfl, rfl, by rw [if_pos rfl]⟩
    · rw [other b isA] at found
      exact ⟨node', found, rfl, rfl, by rw [if_neg isA, Int.add_zero]⟩
  refine ⟨⟨accounts.forest.congr (fun b _ => bound _ rfl b) (fun b _ => bound _ rfl b) fun b _ => bound _ rfl b,
    fun b insideB => ?_, fun b insideB c listed => ?_, fun b insideB top => ?_⟩, fun b insideB node' found => ?_,
    accounts.pinned, fun b positive => ?_, accounts.root, fun b insideB node' found isMount t target => ?_⟩
  · have same := congrArg Option.isSome (shape Node.fs rfl b)
    rw [Option.isSome_map, Option.isSome_map] at same
    rw [same]
    exact accounts.allocated b insideB
  · rw [Tree.fsOf, Tree.fsOf, shape _ rfl, shape _ rfl]
    exact accounts.fs b insideB c listed
  · rw [Tree.parent, bound _ rfl] at top
    rw [Tree.fsOf, shape _ rfl]
    exact accounts.top b insideB top
  · obtain ⟨before, old, -, -, count⟩ := known b insideB node' found
    have refcount := accounts.refcount b insideB before old
    by_cases isA : b = a
    · subst isA
      rw [if_pos rfl] at count
      omega
    · rw [if_neg isA] at count
      have := others b isA
      omega
  · by_cases isA : b = a
    · rw [isA]
      exact inside
    · exact accounts.isOpen b (by rw [← others b isA]; exact positive)
  · obtain ⟨before, old, flags, target', -⟩ := known b insideB node' found
    rw [flags] at isMount
    rw [target'] at target
    exact accounts.mount b insideB before old isMount t target

theorem followMount (inside : a ∈ member) (done : s.followMount a = some b) : b ∈ member := by
  obtain ⟨node, here⟩ := Option.isSome_iff_exists.mp (accounts.allocated a inside)
  rw [Tree.followMount, here, Option.bind_eq_bind, Option.bind_some] at done
  cases target : node.mountTarget with
  | none =>
      rw [target] at done
      cases done
      exact inside
  | some t =>
      rw [target] at done
      simp only [Option.pure_def, Option.some.injEq] at done
      split_ifs at done with isMount
      · subst done
        exact accounts.pinned t (accounts.mount a inside node here isMount t target)
      · subst done
        exact inside

theorem load {parentNode stale : Node φ ε} {entry : Entry ε} (inside : p ∈ member) (hereP : s.node p = some parentNode)
    (unused : s.node a = none) (plain : ¬ isMountpoint entry.flags)
    (done : (s.put a (stale.fill p parentNode entry)).appendChild p a = some s') :
    ∃ depth', Accounts V pin opened s' (insert a member) (Function.update (Function.update kids a []) p (kids p ++ [a])) depth' ∧
      (∀ b, s'.payload b = (s.put a (stale.fill p parentNode entry)).payload b) ∧ s'.next a = none := by
  have old : ∀ b ∈ member, b ≠ a := by
    rintro b insideB rfl
    have := accounts.allocated b insideB
    rw [unused] at this
    cases this
  have put := accounts.congr (t := s.put a (stale.fill p parentNode entry))
    fun b insideB => Tree.put_of_ne (old b insideB) ..
  have new : a ∉ member := fun insideA => old a insideA rfl
  have sameFs : (s.put a (stale.fill p parentNode entry)).fsOf a = (s.put a (stale.fill p parentNode entry)).fsOf p := by
    rw [Tree.fsOf_eq (Tree.put_self ..), Tree.fsOf_eq ((Tree.put_of_ne (old p inside) ..).trans hereP)]
    rfl
  obtain ⟨s₁, appended, payloads, -, linked⟩ := put.toLinked.appendChild inside new (Tree.put_self ..) rfl rfl rfl sameFs
  rw [appended] at done
  cases done
  have list := linked.forest.list p (Set.mem_insert_of_mem a inside)
  rw [Function.update_self] at list
  refine ⟨_, put.rebuild linked (fun b _ _ => payloads b) (fun b positive => Set.mem_insert_of_mem a (put.pinned b positive))
    (fun b positive => Set.mem_insert_of_mem a (put.isOpen b positive)) fun b inside' notOld node here => ?_, payloads, list.split.2⟩
  have isNew : b = a := (Set.mem_insert_iff.mp inside').resolve_right notOld
  subst isNew
  obtain ⟨before, found, same⟩ := Tree.node_of_payload (payloads b) here
  rw [Tree.put_self] at found
  cases found
  rw [same]
  exact ⟨rfl, plain⟩

theorem unlinkAndFreeNode (inside : a ∈ member) (here : s.node a = some node) (free : node.refcount ≤ 0)
    (leaf : node.children = none) :
    ∃ p s' left right, node.parent = some p ∧ p ∈ member ∧ p ≠ a ∧ kids p = left ++ a :: right ∧
      s.unlinkAndFreeNode a = some s' ∧ s'.node a = none ∧ (∀ b, b ≠ a → s'.payload b = s.payload b) ∧
      Accounts V pin opened s' (member \ {a}) (Function.update kids p (left ++ right)) depth := by
  have count := accounts.refcount a inside node here
  have unpinned : pin a = 0 := by omega
  have closed : opened a = 0 := by omega
  have noKids : kids a = [] := by
    have list := accounts.forest.list a inside
    rw [Tree.first_eq here, leaf] at list
    cases found : kids a with
    | nil => rfl
    | cons b rest =>
        rw [found] at list
        cases list.1
  obtain ⟨p, up⟩ : ∃ p, s.parent a = some p := by
    cases found : s.parent a with
    | some p => exact ⟨p, rfl⟩
    | none =>
        obtain ⟨f, rfl, -⟩ := accounts.top a inside found
        have := accounts.root f
        omega
  obtain ⟨insideP, listed⟩ := accounts.forest.up a inside p up
  have notP : p ≠ a := by
    rintro rfl
    rw [noKids] at listed
    cases listed
  obtain ⟨s', left, right, split, done, freed, payloads, linked⟩ := accounts.toLinked.unlinkAndFreeNode inside noKids up
  refine ⟨p, s', left, right, by rw [← Tree.parent_eq here, up], insideP, notP, split, done, freed, payloads,
    accounts.rebuild linked (fun b inside' _ => payloads b inside'.2) (fun b positive => ⟨accounts.pinned b positive, ?_⟩)
      (fun b positive => ⟨accounts.isOpen b positive, ?_⟩) fun b inside' old => absurd inside'.1 old⟩
  · rintro rfl
    omega
  · rintro rfl
    omega

end

theorem notMount {walk : Walk φ ε} (plain : walk.Plain) (loaded : a ∈ walk.loaded)
    (same : walk.tree.payload a = (s.put a node).payload a) : ¬ isMountpoint node.flags := by
  have allocated : (walk.tree.node a).isSome := by
    rw [Tree.isSome_congr same, Tree.put_self]
    rfl
  obtain ⟨node', here⟩ := Option.isSome_iff_exists.mp allocated
  obtain ⟨before, found, shape⟩ := Tree.node_of_payload same here
  rw [Tree.put_self] at found
  cases found
  have notMount := plain a loaded node' here
  rwa [shape] at notMount

section
variable {S : Store σ φ ε} {disk : σ} {mode : FileMode} {current place : Addr} {path : Name} {stack : List Addr}
variable {grants : List (Grant φ ε)} {walk : Walk φ ε} {fuel : Nat}

theorem walkLoop (accounts : Accounts V pin opened s member kids depth) (inside : current ∈ member)
    (fresh : FreshAnswers s.Free grants) (done : Vfs.walkLoop V S disk mode fuel s current stack path grants = some walk)
    (goes : walk.place = some place) (plain : walk.Plain) :
    ∃ member' kids' depth', Accounts V pin opened walk.tree member' kids' depth' ∧ place ∈ member' ∧
      FreshAnswers walk.tree.Free walk.grants := by
  induction fuel generalizing s current stack path grants member kids depth with
  | zero => cases done
  | succ fuel ih =>
      rcases walkLoop_cases done with rfl | ⟨name, rest, -, ⟨node, a, b, here, followed, move, done⟩ |
        ⟨s', stack', new, b, load, followed, done⟩ | load⟩
      · cases goes
        exact ⟨member, kids, depth, accounts, inside, ⟨by simp [Walk.grants, blocksOf], List.nodup_nil⟩⟩
      · have insideA : a ∈ member := by
          rcases move with rfl | up | child
          · exact inside
          · exact (accounts.forest.up current inside a (by rw [Tree.parent_eq here, up])).1
          · rw [← Tree.first_eq here, accounts.siblingWhere inside, Option.some.injEq] at child
            exact (accounts.forest.kid current inside a (List.mem_of_find?_eq_some child)).1
        exact ih accounts (accounts.followMount insideA followed) fresh done
      · obtain ⟨new, stale, grants, parentNode, rfl, hereP, ⟨leftover, wrong⟩ | ⟨s₁, base, entry, same, -, -, appended⟩⟩ :=
          load_cases load rfl
        · cases wrong
        · cases same
          obtain ⟨payloads, semaphores⟩ := appendChild_keeps appended
          obtain ⟨kept, fresh'⟩ := load_keeps fresh payloads semaphores
          -- the flags that the new node has now are those it has at the end
          obtain ⟨grows, keeps⟩ := walkLoop_keeps fresh' done goes
          have allocated : (s'.node new).isSome := by
            rw [Tree.isSome_congr (payloads new), Tree.put_self]
            rfl
          have notMount : ¬ isMountpoint entry.flags :=
            notMount plain (grows.subset (by simp))
              ((keeps new allocated).trans (payloads new))
          obtain ⟨depth', accounts', -⟩ := accounts.load inside hereP fresh.head.1.1 notMount appended
          exact ih accounts' (accounts'.followMount (Set.mem_insert ..) followed) fresh' done
      · obtain ⟨new, stale, grants, parentNode, rfl, hereP, ⟨leftover, rfl⟩ | ⟨s₁, base, entry, rfl, -, -, appended⟩⟩ :=
          load_cases load goes
        · cases goes
          have put : Accounts V pin opened (s.put new leftover) member kids depth := accounts.congr fun a insideA =>
            Tree.put_of_ne (by
              rintro rfl
              have := accounts.allocated a insideA
              rw [fresh.head.1.1] at this
              cases this) ..
          exact ⟨member, kids, depth, put, inside, (load_keeps fresh (fun _ => rfl) rfl).2⟩
        · cases goes
          obtain ⟨payloads, -⟩ := appendChild_keeps appended
          have notMount : ¬ isMountpoint entry.flags :=
            notMount plain (by simp [Walk.loaded]) (payloads place)
          obtain ⟨depth', accounts', -⟩ := accounts.load inside hereP fresh.head.1.1 notMount appended
          exact ⟨_, _, depth', accounts', Set.mem_insert .., ⟨by simp [Walk.grants, blocksOf], List.nodup_nil⟩⟩

theorem walkPath {cwd : Addr} (accounts : Accounts V pin opened s member kids depth) (inside : cwd ∈ member)
    (fresh : FreshAnswers s.Free grants) (done : Vfs.walkPath V S disk mode s path cwd grants = some walk)
    (goes : walk.place = some place) (plain : walk.Plain) :
    ∃ member' kids' depth', Accounts V pin opened walk.tree member' kids' depth' ∧ place ∈ member' ∧
      FreshAnswers walk.tree.Free walk.grants := by
  rw [Vfs.walkPath] at done
  split_ifs at done
  · exact walkLoop accounts (accounts.pinned _ (accounts.root V.ramfs)) fresh done goes plain
  · exact walkLoop accounts inside fresh done goes plain

theorem setNextSibling_none (ends : s.next a = none) : s.setNextSibling a none = s := by
  have same : (s.node a).map (fun node => { node with nextSibling := none }) = s.node a := by
    cases here : s.node a with
    | none => rfl
    | some node =>
        rw [Tree.next_eq here] at ends
        rw [Option.map_some, ← ends]
  rw [Tree.setNextSibling, Tree.modify, same, Function.update_eq_self]

theorem failLookup_node {found : Found σ φ ε} {err : FsErr} (done : failLookup disk s err stack = some found) :
    found.node = none := by
  simp only [failLookup, Option.bind_eq_bind, Option.bind_eq_some_iff, Option.pure_def, Option.some.injEq] at done
  obtain ⟨_, _, rfl⟩ := done
  rfl

theorem finishLookup {found : Found σ φ ε} (done : Vfs.finishLookup disk mode s current stack = some found)
    (success : found.node = some a) : a = current ∧ found.tree = s := by
  simp only [Vfs.finishLookup, Option.bind_eq_bind, Option.bind_eq_some_iff] at done
  obtain ⟨node, here, done⟩ := done
  split_ifs at done
  · rw [failLookup_node done] at success
    cases success
  · cases done
    cases success
    exact ⟨rfl, rfl⟩

variable [DecidableEq φ]

theorem createEntry_file {parentNode : Node φ ε} {name : Name} {entry : Entry ε} {disk' : σ}
    (done : createEntry V S disk parentNode name 0#32 = (.ok entry, disk')) :
    S.nodeCreate disk parentNode.fs parentNode.data name 0#32 = (.ok entry, disk') := by
  have file : fsNodeType 0#32 = fsNodeTypeFile := by decide
  have notDirectory : fsNodeTypeFile ≠ fsNodeTypeDirectory := by decide
  simp only [createEntry, file, ne_eq, not_true_eq_false, false_and, if_false, notDirectory] at done
  split_ifs at done
  · exact done
  · cases done

theorem createLookup {found : Found σ φ ε} {parent : Addr} {name : Name} (accounts : Accounts V pin opened s member kids depth)
    (inside : parent ∈ member) (fresh : FreshAnswers s.Free grants) (files : S.PlainFiles)
    (done : Vfs.createLookup V S disk mode 0#32 s parent name stack grants = some found) (success : found.node = some a) :
    ∃ member' kids' depth', Accounts V pin opened found.tree member' kids' depth' ∧ a ∈ member' := by
  rw [Vfs.createLookup] at done
  cases answer : grants.head?.join with
  | none =>
      rw [answer] at done
      rw [failLookup_node done] at success
      cases success
  | some grant =>
      obtain ⟨new, stale⟩ := grant
      obtain ⟨rest, rfl⟩ := exists_cons_of_head answer
      simp only [answer, Option.bind_eq_bind, Option.bind_eq_some_iff] at done
      obtain ⟨parentNode, hereP, done⟩ := done
      rcases made : createEntry V S disk parentNode name 0#32 with ⟨result, disk'⟩
      rw [made] at done
      cases result with
      | error err =>
          rw [failLookup_node done] at success
          cases success
      | ok entry =>
          simp only [Option.bind_eq_some_iff] at done
          obtain ⟨s', appended, done⟩ := done
          have notMount := files _ _ _ _ _ _ (createEntry_file made)
          obtain ⟨depth', accounts', -, ends⟩ := accounts.load inside hereP fresh.head.1.1 notMount appended
          rw [setNextSibling_none ends] at done
          obtain ⟨rfl, same⟩ := finishLookup done success
          rw [same]
          exact ⟨_, _, depth', accounts', Set.mem_insert ..⟩

theorem vfsFindAndCreateNode {cwd : Addr} {kmalloc : Kmalloc φ ε} {found : Found σ φ ε}
    (accounts : Accounts V pin opened s member kids depth) (inside : cwd ∈ member)
    (fresh : FreshAnswers s.Free kmalloc.nodes) (files : S.PlainFiles)
    (plain : ∀ walk, Vfs.walkPath V S disk mode s path cwd kmalloc.nodes = some walk → walk.Plain)
    (done : Vfs.vfsFindAndCreateNode V S disk s path cwd mode 0#32 kmalloc = some found) (success : found.node = some a) :
    ∃ member' kids' depth', Accounts V pin opened found.tree member' kids' depth' ∧ a ∈ member' := by
  rw [Vfs.vfsFindAndCreateNode] at done
  split_ifs at done with failed
  · cases done
    cases success
  simp only [Option.bind_eq_bind, Option.bind_eq_some_iff] at done
  obtain ⟨walk, walked, done⟩ := done
  cases walk with
  | nuke s' err stack =>
      rw [failLookup_node done] at success
      cases success
  | leave s' err =>
      cases done
      cases success
  | arrived s' current stack =>
      obtain ⟨member', kids', depth', accounts', inside', -⟩ :=
        walkPath accounts inside fresh walked rfl (plain _ walked)
      obtain ⟨rfl, same⟩ := finishLookup done success
      rw [same]
      exact ⟨member', kids', depth', accounts', inside'⟩
  | create s' parent name stack grants =>
      obtain ⟨member', kids', depth', accounts', inside', fresh'⟩ :=
        walkPath accounts inside fresh walked rfl (plain _ walked)
      exact createLookup accounts' inside' fresh' files done success

end

def allocatedNodes (s : Tree φ ε) : Finset Addr := Finset.univ.filter fun a => (s.node a).isSome

theorem allocatedNodes_lt (here : (s.node a).isSome) (freed : s'.node a = none)
    (payloads : ∀ b, b ≠ a → s'.payload b = s.payload b) : (allocatedNodes s').card < (allocatedNodes s).card := by
  refine Finset.card_lt_card (Finset.ssubset_iff_of_subset (fun b found => ?_) |>.mpr ⟨a, ?_, ?_⟩)
  · have allocated : (s'.node b).isSome := (Finset.mem_filter.mp found).2
    have other : b ≠ a := by
      rintro rfl
      rw [freed] at allocated
      cases allocated
    rw [Tree.isSome_congr (payloads b other)] at allocated
    exact Finset.mem_filter.mpr ⟨Finset.mem_univ b, allocated⟩
  · exact Finset.mem_filter.mpr ⟨Finset.mem_univ a, here⟩
  · intro found
    have := (Finset.mem_filter.mp found).2
    rw [freed] at this
    cases this

/-- Nodes go, and nothing else happens to those that stay. -/
structure Shrinks (s s' : Tree φ ε) (member member' : Set Addr) (kids kids' : Addr → List Addr) : Prop where
  members : member' ⊆ member
  payload : ∀ b ∈ member', s'.payload b = s.payload b
  kids : ∀ b ∈ member', (kids' b).Sublist (kids b)

theorem cleanupLoop {fuel : Nat} (accounts : Accounts V pin opened s member kids depth) (inside : a ∈ member)
    (enough : (allocatedNodes s).card ≤ fuel) :
    ∃ s' member' kids', Tree.cleanupLoop fuel s a = some s' ∧ Accounts V pin opened s' member' kids' depth ∧
      Shrinks s s' member member' kids kids' := by
  induction fuel generalizing s member kids a with
  | zero =>
      have empty := Finset.card_eq_zero.mp (Nat.le_zero.mp enough)
      have found : a ∈ allocatedNodes s := Finset.mem_filter.mpr ⟨Finset.mem_univ a, accounts.allocated a inside⟩
      rw [empty] at found
      cases found
  | succ fuel ih =>
      obtain ⟨node, here⟩ := Option.isSome_iff_exists.mp (accounts.allocated a inside)
      rw [Tree.cleanupLoop, here, Option.bind_eq_bind, Option.bind_some]
      by_cases stays : node.refcount > 0 ∨ node.children ≠ none
      · rw [if_pos stays]
        exact ⟨s, member, kids, rfl, accounts, ⟨Set.Subset.refl _, fun _ _ => rfl, fun _ _ => .refl _⟩⟩
      · rw [if_neg stays]
        rw [not_or, not_lt, not_not] at stays
        obtain ⟨p, s', left, right, up, insideP, notA, split, done, freed, payloads, accounts'⟩ :=
          accounts.unlinkAndFreeNode inside here stays.1 stays.2
        have shorter : ∀ b, (Function.update kids p (left ++ right) b).Sublist (kids b) := by
          intro b
          by_cases isP : b = p
          · subst isP
            rw [Function.update_self, split]
            exact List.Sublist.append_left (List.sublist_cons_self a right) left
          · rw [Function.update_of_ne isP]
        obtain ⟨parentNode, hereP⟩ := Option.isSome_iff_exists.mp (accounts.allocated p insideP)
        have fewer := allocatedNodes_lt (accounts.allocated a inside) freed payloads
        simp only [up, hereP, done, Option.bind_eq_bind, Option.bind_some]
        split_ifs with emptied
        · obtain ⟨s₁, member', kids', cleaned, accounts₁, shrinks⟩ := ih accounts' ⟨insideP, notA⟩ (by omega)
          refine ⟨s₁, member', kids', cleaned, accounts₁, fun b kept => (shrinks.members kept).1, fun b kept => ?_,
            fun b kept => (shrinks.kids b kept).trans (shorter b)⟩
          rw [shrinks.payload b kept, payloads b (shrinks.members kept).2]
        · exact ⟨s', member \ {a}, _, rfl, accounts', Set.sdiff_subset, fun b kept => payloads b kept.2, fun b _ => shorter b⟩

theorem vfsCleanupNodeTree (accounts : Accounts V pin opened s member kids depth) (inside : a ∈ member) :
    ∃ s' member' kids', s.vfsCleanupNodeTree a = some s' ∧ Accounts V pin opened s' member' kids' depth ∧
      Shrinks s s' member member' kids kids' := by
  refine cleanupLoop accounts inside ((Finset.card_filter_le ..).trans ?_)
  rw [Finset.card_univ, Fintype.card_fin]
  exact le_rfl

end Accounts
end Kerosene.Vfs
