import Kerosene.Lib.Chain
import Mathlib.Data.Fintype.Card
import Mathlib.Logic.Function.Basic
import Mathlib.Algebra.GroupWithZero.Nat

/-!
# Datanode chains

A datanode is a `next` pointer and `RAMFS_DATANODE_SIZE` bytes of data, which a file, a pipe and a
directory read in their own ways. A null pointer is `none`; following a pointer to a block that is
not allocated is a fault, also `none`.
-/

namespace Kerosene.Ramfs
open Lib

abbrev Addr := Fin (2 ^ 32)

instance addr_neZero : NeZero (2 ^ 32) := ⟨by decide⟩

structure Datanode (δ : Type*) where
  next : Option Addr
  data : δ

abbrev Datanodes (δ : Type*) := Addr → Option (Datanode δ)

-- a chain that ends meets no address twice
def chainFuel : Nat := 2 ^ 32

namespace Datanodes
variable {δ : Type*}

def link (s : Datanodes δ) (a : Addr) : Option Addr := (s a).bind Datanode.next

def setNext (s : Datanodes δ) (a : Addr) (next : Option Addr) : Datanodes δ :=
  Function.update s a ((s a).map fun node => ⟨next, node.data⟩)

def setData (s : Datanodes δ) (a : Addr) (data : δ) : Datanodes δ :=
  Function.update s a ((s a).map fun node => ⟨node.next, data⟩)

def put (s : Datanodes δ) (a : Addr) (node : Datanode δ) : Datanodes δ := Function.update s a (some node)

def rfree (s : Datanodes δ) (a : Addr) : Datanodes δ := Function.update s a none

def removeLoop : (fuel : Nat) → Datanodes δ → Option Addr → Option (Datanodes δ)
  | _, s, none => some s
  | 0, _, some _ => none
  | fuel + 1, s, some saved => do
      let node ← s saved
      removeLoop fuel (s.rfree saved) node.next

def removeDatanodeChain (s : Datanodes δ) (node : Option Addr) : Option (Datanodes δ) :=
  removeLoop chainFuel s node

/-- What `rmalloc` answers: null, or a block with whatever it held before. -/
abbrev Grant (δ : Type*) := Option (Addr × Datanode δ)

def blocksOf (grants : List (Grant δ)) : List Addr := grants.filterMap fun grant => grant.map Prod.fst

-- `rmalloc` hands out a block not in use, and no block twice
structure Fresh (s : Datanodes δ) (grants : List (Grant δ)) : Prop where
  unused : ∀ a ∈ blocksOf grants, s a = none
  apart : (blocksOf grants).Nodup

/-! ## `ramfs_allocate_datanodes` -/

-- `memset` of the data, when `clear` says what it leaves there
def cleared (clear : Option δ) (data : δ) : δ := clear.getD data

def allocateLoop (clear : Option δ) (start : Addr) :
    (count : Nat) → (s : Datanodes δ) → (current : Addr) → List (Grant δ) → Option (Option Addr × Datanodes δ)
  | 0, s, _, _ => some (some start, s)
  | count + 1, s, current, grants => do
      match grants.head?.join with
      | none =>
          let s ← (s.setNext current none).removeDatanodeChain (some start)
          return (none, s)
      | some (block, stale) =>
          let s := s.put block stale
          let node ← s current
          -- `clear` reaches the node before the new one, not the new one
          let s := (s.setNext current (some block)).setData current (cleared clear node.data)
          allocateLoop clear start count (s.setNext block none) block grants.tail

def ramfsAllocateDatanodes (s : Datanodes δ) (count : Nat) (clear : Option δ) (grants : List (Grant δ)) :
    Option (Option Addr × Datanodes δ) :=
  match count with
  | 0 => some (none, s)
  | count + 1 =>
      match grants.head?.join with
      | none => some (none, s)
      | some (start, stale) =>
          let s := s.put start ⟨stale.next, cleared clear stale.data⟩
          if count = 0 then some (some start, s.setNext start none)
          else allocateLoop clear start count s start grants.tail

/-! ## Following a chain -/

variable {s s' : Datanodes δ} {a : Addr} {l : List Addr} {first : Option Addr}

structure Chain (s : Datanodes δ) (first : Option Addr) (l : List Addr) : Prop where
  links : Seg s.link first l none
  allocated : ∀ a ∈ l, (s a).isSome

theorem Chain.nodup (chain : s.Chain first l) : l.Nodup := chain.links.nodup

theorem Chain.length_le (chain : s.Chain first l) : l.length ≤ chainFuel := by
  have := chain.nodup.length_le_card
  rwa [Fintype.card_fin] at this

theorem Chain.congr (chain : s.Chain first l) (same : ∀ a ∈ l, s' a = s a) : s'.Chain first l := by
  refine ⟨chain.links.congr fun a member => ?_, fun a member => ?_⟩
  · rw [link, link, same a member]
  · rw [same a member]
    exact chain.allocated a member

theorem chain_cons : s.Chain first (a :: l) ↔ ∃ node, first = some a ∧ s a = some node ∧ s.Chain node.next l := by
  constructor
  · intro chain
    obtain ⟨node, here⟩ := Option.isSome_iff_exists.mp (chain.allocated a List.mem_cons_self)
    refine ⟨node, chain.links.1, here, ?_, fun b member => chain.allocated b (List.mem_cons_of_mem a member)⟩
    have := chain.links.2
    rwa [link, here] at this
  · rintro ⟨node, rfl, here, chain⟩
    refine ⟨⟨rfl, ?_⟩, ?_⟩
    · rw [link, here]
      exact chain.links
    · intro b member
      rcases List.mem_cons.mp member with rfl | inside
      · rw [here]
        rfl
      · exact chain.allocated b inside

theorem Chain.splice {left right rest : List Addr} {b : Addr} {node : Datanode δ} (chain : s.Chain first (left ++ b :: right))
    (kept : ∀ e ∈ left, s' e = s e) (linked : s' b = some node) (tail : s'.Chain node.next rest) :
    s'.Chain first (left ++ b :: rest) := by
  have links := (seg_append).mpr ⟨node.next, chain.links.split.1.relink (fun e member => ?_) ?_, tail.links⟩
  · refine ⟨by rwa [List.append_assoc] at links, fun e member => ?_⟩
    rcases List.mem_append.mp member with before | after
    · rw [kept e before]
      exact chain.allocated e (List.mem_append_left _ before)
    · rcases List.mem_cons.mp after with rfl | inside
      · rw [linked]
        rfl
      · exact tail.allocated e inside
  · rw [link, link, kept e member]
  · rw [link, linked]
    rfl

theorem Chain.extend {left : List Addr} {b c : Addr} {last new : Datanode δ} (chain : s.Chain first (left ++ [b]))
    (kept : ∀ e ∈ left, s' e = s e) (linked : s' b = some last) (next : last.next = some c)
    (added : s' c = some new) (ends : new.next = none) : s'.Chain first (left ++ [b] ++ [c]) := by
  have tail : s'.Chain last.next [c] := chain_cons.mpr ⟨new, next, added, by rw [ends]; exact ⟨rfl, by simp⟩⟩
  rw [List.append_assoc]
  exact chain.splice kept linked tail

theorem rfree_of_ne {b : Addr} (other : b ≠ a) (s : Datanodes δ) : s.rfree a b = s b :=
  Function.update_of_ne other ..

def freed (s : Datanodes δ) (l : List Addr) : Datanodes δ := fun a => if a ∈ l then none else s a

theorem removeLoop_chain {fuel : Nat} (enough : l.length ≤ fuel) (chain : s.Chain first l) :
    removeLoop fuel s first = some (s.freed l) := by
  induction l generalizing fuel s first with
  | nil =>
      have : first = none := chain.links
      rw [this, removeLoop]
      rfl
  | cons a l ih =>
      have nodup := List.nodup_cons.mp chain.nodup
      obtain ⟨node, rfl, here, rest⟩ := chain_cons.mp chain
      obtain ⟨fuel, rfl⟩ : ∃ n, fuel = n + 1 := ⟨fuel - 1, by simp at enough; omega⟩
      have rest' : (s.rfree a).Chain node.next l := rest.congr fun b member =>
        rfree_of_ne (by rintro rfl; exact nodup.1 member) s
      rw [removeLoop, here, Option.bind_eq_bind, Option.bind_some, ih (by simp at enough; omega) rest']
      congr 1
      funext b
      by_cases same : b = a
      · subst same
        simp [freed, rfree]
      · simp [freed, same, rfree_of_ne same]

theorem removeDatanodeChain_chain (chain : s.Chain first l) : s.removeDatanodeChain first = some (s.freed l) :=
  removeLoop_chain chain.length_le chain

theorem setData_self {node : Datanode δ} (here : s a = some node) (data : δ) :
    s.setData a data a = some ⟨node.next, data⟩ := by
  simp [setData, here]

theorem setData_of_ne {b : Addr} (other : b ≠ a) (s : Datanodes δ) (data : δ) : s.setData a data b = s b :=
  Function.update_of_ne other ..

theorem setData_isSome (s : Datanodes δ) (a b : Addr) (data : δ) : (s.setData a data b).isSome = (s b).isSome := by
  by_cases same : b = a
  · subst same
    simp [setData]
  · rw [setData_of_ne same]

theorem setData_link (s : Datanodes δ) (a : Addr) (data : δ) : (s.setData a data).link = s.link := by
  funext b
  by_cases same : b = a
  · subst same
    cases here : s b <;> simp [link, setData, here]
  · rw [link, link, setData_of_ne same]

theorem Chain.setData (chain : s.Chain first l) (a : Addr) (data : δ) : (s.setData a data).Chain first l := by
  refine ⟨?_, fun b member => ?_⟩
  · rw [setData_link]
    exact chain.links
  · rw [setData_isSome]
    exact chain.allocated b member

theorem setNext_self {node : Datanode δ} (here : s a = some node) (next : Option Addr) :
    s.setNext a next a = some ⟨next, node.data⟩ := by
  simp [setNext, here]

theorem setNext_of_ne {b : Addr} (other : b ≠ a) (s : Datanodes δ) (next : Option Addr) : s.setNext a next b = s b :=
  Function.update_of_ne other ..

/-! ## What an allocation leaves -/

variable {clear : Option δ} {grants : List (Grant δ)} {start new current block : Addr} {stale node : Datanode δ}
variable {count : Nat} {built : List Addr}

theorem Fresh.tail {grant : Grant δ} (fresh : s.Fresh (grant :: grants)) : s.Fresh grants := by
  cases grant with
  | none => exact ⟨fresh.unused, fresh.apart⟩
  | some found =>
      exact ⟨fun a member => fresh.unused a (List.mem_cons_of_mem _ member), (List.nodup_cons.mp fresh.apart).2⟩

theorem Fresh.drop (fresh : s.Fresh grants) (count : Nat) : s.Fresh (grants.drop count) := by
  induction count generalizing grants with
  | zero => exact fresh
  | succ count ih =>
      cases grants with
      | nil => exact fresh
      | cons grant grants => exact ih fresh.tail

theorem Fresh.head (fresh : s.Fresh (some (block, stale) :: grants)) : s block = none ∧ block ∉ blocksOf grants :=
  ⟨fresh.unused block List.mem_cons_self, (List.nodup_cons.mp fresh.apart).1⟩

theorem Fresh.congr (fresh : s.Fresh grants) (same : ∀ a ∈ blocksOf grants, s' a = s a) : s'.Fresh grants :=
  ⟨fun a member => by rw [same a member, fresh.unused a member], fresh.apart⟩

theorem Fresh.change (fresh : s.Fresh grants) (here : (s a).isSome) (others : ∀ b, b ≠ a → s' b = s b) :
    s'.Fresh grants := by
  refine fresh.congr fun b member => others b ?_
  rintro rfl
  rw [fresh.unused b member] at here
  cases here

theorem exists_cons_of_answer {found : Addr × Datanode δ} (answer : grants.head?.join = some found) :
    ∃ rest, grants = some found :: rest := by
  cases grants with
  | nil => cases answer
  | cons grant rest =>
      have : grant = some found := answer
      exact ⟨rest, by rw [this]⟩

-- one round of the loop
def attached (clear : Option δ) (s : Datanodes δ) (current block : Addr) (stale node : Datanode δ) : Datanodes δ :=
  (((s.put block stale).setNext current (some block)).setData current (cleared clear node.data)).setNext block none

theorem attached_new (other : block ≠ current) :
    attached clear s current block stale node block = some ⟨none, stale.data⟩ := by
  simp [attached, setNext, setData, put, other]

theorem attached_current (other : block ≠ current) (here : s current = some node) :
    attached clear s current block stale node current = some ⟨some block, cleared clear node.data⟩ := by
  simp [attached, setNext, setData, put, other.symm, here]

theorem attached_of_ne (notNew : a ≠ block) (notCurrent : a ≠ current) :
    attached clear s current block stale node a = s a := by
  simp [attached, setNext, setData, put, notNew, notCurrent]

/-- A chain under construction: its last datanode has no link yet. -/
structure Building (s : Datanodes δ) (start : Addr) (built : List Addr) (current : Addr) : Prop where
  links : Seg s.link (some start) (built ++ [current]) (s.link current)
  allocated : ∀ a ∈ built ++ [current], (s a).isSome
  nodup : (built ++ [current]).Nodup

theorem Building.chain (building : s.Building start built current) (ends : s.link current = none) :
    s.Chain (some start) (built ++ [current]) := by
  have links := building.links
  rw [ends] at links
  exact ⟨links, building.allocated⟩

theorem Building.attach (building : s.Building start built current) (here : s current = some node)
    (unused : s block = none) :
    (attached clear s current block stale node).Building start (built ++ [current]) block := by
  have outside : ∀ a ∈ built ++ [current], a ≠ block := by
    rintro a member rfl
    have := building.allocated a member
    rw [unused] at this
    cases this
  have other : block ≠ current := (outside current (by simp)).symm
  have notCurrent : ∀ a ∈ built, a ≠ current := by
    rintro a member rfl
    exact (List.nodup_append'.mp building.nodup).2.2 member List.mem_cons_self
  have kept : ∀ a ∈ built, attached clear s current block stale node a = s a := fun a member =>
    attached_of_ne (outside a (by simp [member])) (notCurrent a member)
  refine ⟨seg_append.mpr ⟨some block, building.links.relink (fun a member => ?_) ?_, rfl, rfl⟩, fun a member => ?_, ?_⟩
  · rw [link, link, kept a member]
  · rw [link, attached_current other here]
    rfl
  · rcases List.mem_append.mp member with old | isNew
    · rcases List.mem_append.mp old with inside | isCurrent
      · rw [kept a inside]
        exact building.allocated a old
      · rw [List.mem_singleton.mp isCurrent, attached_current other here]
        rfl
    · rw [List.mem_singleton.mp isNew, attached_new other]
      rfl
  · refine List.nodup_append'.mpr ⟨building.nodup, List.nodup_singleton _, fun a member isNew => ?_⟩
    exact outside a member (List.mem_singleton.mp isNew)

/-- The blocks `given` are new; `s'` links them in this order. -/
structure Allocated (s s' : Datanodes δ) (clear : Option δ) (grants : List (Grant δ)) (given : List (Addr × Datanode δ)) :
    Prop where
  granted : grants.take given.length = given.map some
  others : ∀ a, a ∉ given.map Prod.fst → s' a = s a
  news : ∀ a ∈ given.map Prod.fst, s a = none
  stale : clear = none → ∀ block ∈ given, (s' block.1).map Datanode.data = some block.2.data
  fresh : s'.Fresh (grants.drop given.length)

variable {given : List (Addr × Datanode δ)}

theorem Building.ne_block (building : s.Building start built current) (unused : s block = none) : block ≠ current := by
  rintro rfl
  have := building.allocated block (by simp)
  rw [unused] at this
  cases this

theorem Fresh.attached (fresh : s.Fresh (some (block, stale) :: grants)) (here : s current = some node) :
    (attached clear s current block stale node).Fresh grants := by
  refine fresh.tail.congr fun a member => attached_of_ne ?_ ?_
  · rintro rfl
    exact fresh.head.2 member
  · rintro rfl
    rw [fresh.tail.unused a member] at here
    cases here

theorem allocateLoop_some (building : s.Building start built current) (here : s current = some node)
    (unused : s block = none) :
    allocateLoop clear start (count + 1) s current (some (block, stale) :: grants) =
      allocateLoop clear start count (attached clear s current block stale node) block grants := by
  have there : s.put block stale current = some node := by
    rw [put, Function.update_of_ne (building.ne_block unused).symm, here]
  rw [allocateLoop]
  simp only [List.head?_cons, Option.join_some, there, Option.bind_eq_bind, Option.bind_some, List.tail_cons]
  rfl

theorem allocateLoop_spec (building : s.Building start built current) (ends : count = 0 → s.link current = none)
    (fresh : s.Fresh grants) (done : allocateLoop clear start count s current grants = some (some new, s')) :
    new = start ∧ ∃ given : List (Addr × Datanode δ), given.length = count ∧
      s'.Chain (some start) (built ++ [current] ++ given.map Prod.fst) ∧
      grants.take count = given.map some ∧ (∀ a, a ≠ current → a ∉ given.map Prod.fst → s' a = s a) ∧
      (∀ a ∈ given.map Prod.fst, s a = none) ∧
      (clear = none → (s' current).map Datanode.data = (s current).map Datanode.data ∧
        ∀ block ∈ given, (s' block.1).map Datanode.data = some block.2.data) ∧
      s'.Fresh (grants.drop count) := by
  induction count generalizing s built current grants with
  | zero =>
      rw [allocateLoop] at done
      cases done
      exact ⟨rfl, [], rfl, by rw [List.map_nil, List.append_nil]; exact building.chain (ends rfl), rfl, fun _ _ _ => rfl,
        by simp, by simp, fresh⟩
  | succ count ih =>
      obtain ⟨node, here⟩ := Option.isSome_iff_exists.mp (building.allocated current (by simp))
      cases answer : grants.head?.join with
      | none =>
          rw [allocateLoop, answer] at done
          simp only [Option.bind_eq_bind, Option.bind_eq_some_iff] at done
          obtain ⟨_, _, wrong⟩ := done
          cases wrong
      | some grant =>
          obtain ⟨block, stale⟩ := grant
          obtain ⟨rest, rfl⟩ := exists_cons_of_answer answer
          have unused := fresh.head.1
          have other := building.ne_block unused
          rw [allocateLoop_some building here unused] at done
          obtain ⟨same, given, length, chain, granted, others, news, data, fresh'⟩ := ih (building.attach here unused)
            (fun _ => by rw [link, attached_new other]; rfl) (fresh.attached here) done
          have notAgain : ∀ a ∈ given.map Prod.fst, a ≠ current ∧ a ≠ block := by
            intro a member
            have none := news a member
            constructor <;> rintro rfl
            · rw [attached_current other here] at none
              cases none
            · rw [attached_new other] at none
              cases none
          refine ⟨same, (block, stale) :: given, by simp [length], by simpa using chain, by simp [granted],
            fun a notCurrent outside => ?_, fun a member => ?_, fun keeps => ⟨?_, fun b member => ?_⟩, fresh'⟩
          · rw [List.map_cons, List.mem_cons, not_or] at outside
            rw [others a outside.1 outside.2, attached_of_ne outside.1 notCurrent]
          · rcases List.mem_cons.mp member with rfl | inside
            · exact unused
            · rw [← news a inside, attached_of_ne (notAgain a inside).2 (notAgain a inside).1]
          · rw [others current other.symm (fun again => (notAgain _ again).1 rfl), attached_current other here, here, keeps]
            rfl
          · rcases List.mem_cons.mp member with rfl | inside
            · rw [(data keeps).1, attached_new other]
              rfl
            · exact (data keeps).2 b inside

theorem ramfsAllocateDatanodes_spec (fresh : s.Fresh grants)
    (done : s.ramfsAllocateDatanodes count clear grants = some (some new, s')) :
    ∃ given : List (Addr × Datanode δ), given.length = count ∧ s'.Chain (some new) (given.map Prod.fst) ∧
      Allocated s s' clear grants given := by
  cases count with
  | zero => cases done
  | succ count =>
      rw [ramfsAllocateDatanodes] at done
      cases answer : grants.head?.join with
      | none => rw [answer] at done; cases done
      | some grant =>
          obtain ⟨start, stale⟩ := grant
          obtain ⟨rest, rfl⟩ := exists_cons_of_answer answer
          obtain ⟨unused, notAgain⟩ := fresh.head
          simp only [answer] at done
          generalize made : s.put start ⟨stale.next, cleared clear stale.data⟩ = s₁ at done
          have here : s₁ start = some ⟨stale.next, cleared clear stale.data⟩ := by
            rw [← made]
            exact Function.update_self ..
          have others : ∀ a, a ≠ start → s₁ a = s a := by
            intro a other
            rw [← made]
            exact Function.update_of_ne other ..
          have fresh₁ : s₁.Fresh rest := fresh.tail.congr fun a member => others a (by rintro rfl; exact notAgain member)
          split_ifs at done with one
          · subst one
            cases done
            refine ⟨[(new, stale)], rfl,
              chain_cons.mpr ⟨⟨none, cleared clear stale.data⟩, rfl, by simp [setNext, here], rfl, by simp⟩, by simp,
              fun a outside => ?_, by simpa using unused, fun keeps block member => ?_, fresh₁.congr fun a member => ?_⟩
            · have other : a ≠ new := by simpa using outside
              rw [setNext, Function.update_of_ne other, others a other]
            · rw [List.mem_singleton.mp member, setNext_self here, keeps]
              rfl
            · exact Function.update_of_ne (by rintro rfl; exact notAgain member) ..
          · have building : s₁.Building start [] start := ⟨⟨rfl, rfl⟩, by simp [here], by simp⟩
            obtain ⟨rfl, given, length, chain, granted, kept, news, data, fresh'⟩ :=
              allocateLoop_spec building (fun none => absurd none one) fresh₁ done
            refine ⟨(new, stale) :: given, by simp [length], chain, by simp [length, granted], fun a outside => ?_,
              fun a member => ?_, fun keeps block member => ?_, by simpa [length] using fresh'⟩
            · rw [List.map_cons, List.mem_cons, not_or] at outside
              rw [kept a outside.1 outside.2, others a outside.1]
            · rcases List.mem_cons.mp member with rfl | inside
              · exact unused
              · have none := news a inside
                rwa [others a (by rintro rfl; rw [here] at none; cases none)] at none
            · rcases List.mem_cons.mp member with rfl | inside
              · rw [(data keeps).1, here, keeps]
                rfl
              · exact (data keeps).2 block inside

theorem allocateLoop_succeeds (building : s.Building start built current) (fresh : s.Fresh grants)
    (granted : grants.take given.length = given.map some) :
    ∃ s', allocateLoop clear start given.length s current grants = some (some start, s') := by
  induction given generalizing s built current grants with
  | nil => exact ⟨s, rfl⟩
  | cons grant given ih =>
      obtain ⟨node, here⟩ := Option.isSome_iff_exists.mp (building.allocated current (by simp))
      cases grants with
      | nil => simp at granted
      | cons head grants =>
          simp only [List.length_cons, List.take_succ_cons, List.map_cons, List.cons.injEq] at granted
          obtain ⟨rfl, granted⟩ := granted
          have unused := fresh.head.1
          rw [List.length_cons, allocateLoop_some building here unused]
          exact ih (building.attach here unused) (fresh.attached here) granted

theorem ramfsAllocateDatanodes_succeeds {c : Option δ} (fresh : s.Fresh grants) (granted : grants.take given.length = given.map some)
    (positive : given ≠ []) : ∃ new s', s.ramfsAllocateDatanodes given.length c grants = some (some new, s') := by
  obtain ⟨⟨start, stale⟩, given, rfl⟩ := List.exists_cons_of_ne_nil positive
  cases grants with
  | nil => simp at granted
  | cons head grants =>
      simp only [List.length_cons, List.take_succ_cons, List.map_cons, List.cons.injEq] at granted
      obtain ⟨rfl, granted⟩ := granted
      rw [List.length_cons, ramfsAllocateDatanodes]
      simp only [List.head?_cons, Option.join_some, List.tail_cons]
      generalize made : s.put start ⟨stale.next, cleared c stale.data⟩ = s₁
      have here : s₁ start = some ⟨stale.next, cleared c stale.data⟩ := by
        rw [← made]
        exact Function.update_self ..
      have fresh₁ : s₁.Fresh grants := fresh.tail.congr fun a member => by
        rw [← made]
        exact Function.update_of_ne (by rintro rfl; exact fresh.head.2 member) ..
      split_ifs with one
      · exact ⟨start, _, rfl⟩
      · have building : s₁.Building start [] start := ⟨⟨rfl, rfl⟩, by simp [here], by simp⟩
        obtain ⟨s', done⟩ := allocateLoop_succeeds building fresh₁ granted
        exact ⟨start, s', done⟩

end Datanodes
end Kerosene.Ramfs
