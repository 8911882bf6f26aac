import Kerosene.Ramfs.Pipe
import Mathlib.Data.List.TakeWhile

/-!
# The copy loops of a pipe
-/

namespace Kerosene.Ramfs.PipeData
open Lib
variable {d : PipeData} {nodes : List Addr} {unread buffer : List UInt8} {n fuel : Nat}

/-- The chain holds bytes that are read, then `unread`, then bytes not written yet. -/
structure Stores (d : PipeData) (nodes : List Addr) (unread : List UInt8) : Prop where
  chain : d.datanode.Chain d.first nodes
  last : d.last = nodes.getLast?
  nonempty : nodes ≠ []
  head : d.head < 512
  tail : d.tail < 512
  split : ∃ before free, d.datanode.bytes nodes = before ++ unread ++ free ∧ before.length = d.head ∧
    free.length = 512 - d.tail

/-- The same, where the last datanode may have been filled to its end. -/
structure Keeps (d : PipeData) (nodes : List Addr) (unread : List UInt8) : Prop where
  chain : d.datanode.Chain d.first nodes
  last : d.last = nodes.getLast?
  nonempty : nodes ≠ []
  head : d.head < 512
  tail : d.tail ≤ 512
  split : ∃ before free, d.datanode.bytes nodes = before ++ unread ++ free ∧ before.length = d.head ∧
    free.length = 512 - d.tail

theorem Stores.keeps (stores : d.Stores nodes unread) : d.Keeps nodes unread :=
  ⟨stores.chain, stores.last, stores.nonempty, stores.head, stores.tail.le, stores.split⟩

theorem Keeps.stores (keeps : d.Keeps nodes unread) (room : d.tail < 512) : d.Stores nodes unread :=
  ⟨keeps.chain, keeps.last, keeps.nonempty, keeps.head, room, keeps.split⟩

/-! ## Reading -/

theorem Keeps.front {a : Addr} {rest : List Addr} {node : Datanode Block} (keeps : d.Keeps (a :: rest) unread)
    (here : d.datanode a = some node) (short : n ≤ unread.length) (inside : d.head + n ≤ 512) :
    (node.data.toList.drop d.head).take n = unread.take n := by
  obtain ⟨before, free, split, length, -⟩ := keeps.split
  have row := Datanodes.row_eq here
  have size := Datanodes.row_length here
  rw [Datanodes.bytes_cons, List.append_assoc] at split
  have same : ((d.datanode.row a ++ d.datanode.bytes rest).drop d.head).take n =
      ((before ++ (unread ++ free)).drop d.head).take n := by rw [split]
  rw [← length, List.drop_append_of_le_length (by omega), List.take_append_of_le_length (by simp; omega),
    List.drop_left, List.take_append_of_le_length short, row, length] at same
  exact same

-- a part of the first datanode is read
theorem Keeps.advance (keeps : d.Keeps nodes unread) (short : n ≤ unread.length) (inside : d.head + n < 512) :
    ({ d with head := d.head + n } : PipeData).Keeps nodes (unread.drop n) := by
  obtain ⟨before, free, split, length, space⟩ := keeps.split
  refine ⟨keeps.chain, keeps.last, keeps.nonempty, inside, keeps.tail, before ++ unread.take n, free, ?_, ?_, space⟩
  · rw [split]
    simp [List.take_append_drop]
  · rw [List.length_append, List.length_take, length, Nat.min_eq_left short]

-- the first datanode is read to its end, and is not the last one
theorem Keeps.free {a next : Addr} {rest : List Addr} (keeps : d.Keeps (a :: next :: rest) unread)
    (short : n ≤ unread.length) (all : d.head + n = 512) :
    ({ d with datanode := d.datanode.rfree a, first := some next, head := 0 } : PipeData).Keeps (next :: rest)
      (unread.drop n) := by
  obtain ⟨before, free, split, length, space⟩ := keeps.split
  obtain ⟨node, -, here, chain⟩ := Datanodes.chain_cons.mp keeps.chain
  have nodup := (List.nodup_cons.mp keeps.chain.nodup).1
  have other : ∀ b ∈ next :: rest, d.datanode.rfree a b = d.datanode b := fun b member =>
    Datanodes.rfree_of_ne (by rintro rfl; exact nodup member) _
  have first : node.next = some next := chain.links.1
  rw [first] at chain
  refine ⟨chain.congr other, ?_, by simp, Nat.zero_lt_succ 511, keeps.tail, [], free, ?_, rfl, space⟩
  · exact keeps.last.trans (by simp)
  · have same := congrArg (List.drop 512) split
    rw [Datanodes.bytes_cons, List.drop_left' (Datanodes.row_length here), List.append_assoc, ← all, ← length,
      List.drop_length_add_append, List.drop_append_of_le_length short] at same
    rw [Datanodes.bytes_congr fun b member => Datanodes.row_congr (other b member), same]
    rfl

theorem Keeps.single {a : Addr} (keeps : d.Keeps [a] unread) : d.head + unread.length = d.tail := by
  obtain ⟨before, free, split, length, space⟩ := keeps.split
  have size := congrArg List.length split
  rw [Datanodes.bytes_length keeps.chain.allocated, List.length_append, List.length_append] at size
  have := keeps.tail
  simp only [List.length_singleton] at size
  omega

-- what one round of either loop copies
theorem chunk_bounds {offset chunk : Nat} (inside : offset ≤ 512)
    (chosen : (if n + 1 < ramfsDatanodeSize - offset then n + 1 else ramfsDatanodeSize - offset) = chunk) :
    chunk ≤ n + 1 ∧ offset + chunk ≤ 512 ∧ (offset + chunk = 512 ∨ chunk = n + 1) ∧ (offset < 512 → 0 < chunk) := by
  have size : ramfsDatanodeSize = 512 := rfl
  split_ifs at chosen with small
  · exact ⟨by omega, by omega, .inr chosen.symm, by omega⟩
  · exact ⟨by omega, by omega, .inl (by omega), by omega⟩

/-- By induction on the rounds. A datanode that is full and the last one is not read to its end. -/
theorem readLoop_keeps (buffer : List UInt8) (keeps : d.Keeps nodes unread) (short : n ≤ unread.length)
    (stays : d.tail < 512 ∨ n < unread.length) (enough : n ≤ fuel) :
    ∃ d' nodes', readLoop fuel d n buffer = some (d', buffer ++ unread.take n) ∧ d'.Keeps nodes' (unread.drop n) ∧ d'.tail = d.tail := by
  induction fuel generalizing d nodes unread n buffer with
  | zero =>
      obtain rfl : n = 0 := by omega
      exact ⟨d, nodes, by simp [readLoop], by simpa using keeps, rfl⟩
  | succ fuel ih =>
      cases n with
      | zero => exact ⟨d, nodes, by simp [readLoop], by simpa using keeps, rfl⟩
      | succ n =>
          obtain ⟨a, rest, rfl⟩ := List.exists_cons_of_ne_nil keeps.nonempty
          obtain ⟨node, first, here, chain⟩ := Datanodes.chain_cons.mp keeps.chain
          have inside := keeps.head
          generalize chosen : (if n + 1 < ramfsDatanodeSize - d.head then n + 1 else ramfsDatanodeSize - d.head) = chunk
          obtain ⟨most, fits, -, positive⟩ := chunk_bounds inside.le chosen
          have bytes := keeps.front (n := chunk) here (by omega) fits
          rw [readLoop]
          simp only [first, here, chosen, (positive inside).ne', bytes, Option.bind_eq_bind, Option.bind_some, if_false]
          have joined : unread.take (n + 1) = unread.take chunk ++ (unread.drop chunk).take (n + 1 - chunk) := by
            rw [← List.take_add, Nat.add_sub_cancel' most]
          have skipped : (unread.drop chunk).drop (n + 1 - chunk) = unread.drop (n + 1) := by
            rw [List.drop_drop, Nat.add_sub_cancel' most]
          rw [joined, ← List.append_assoc, ← skipped]
          have length : (unread.drop chunk).length = unread.length - chunk := List.length_drop
          by_cases whole : d.head + chunk = 512
          · cases rest with
            | nil =>
                have := keeps.single
                have := keeps.tail
                omega
            | cons next rest =>
                have follows : node.next = some next := chain.links.1
                have moved : d.consumed a node (d.head + chunk) =
                    { d with datanode := d.datanode.rfree a, first := some next, head := 0 } := by
                  rw [consumed, if_pos (show d.head + chunk = ramfsDatanodeSize from whole), follows]
                rw [moved]
                exact ih _ (keeps.free (by omega) whole) (by omega) (by dsimp only; omega) (by omega)
          · have same : d.consumed a node (d.head + chunk) = { d with head := d.head + chunk } := by
              rw [consumed, if_neg (show ¬ d.head + chunk = ramfsDatanodeSize from whole)]
            rw [same]
            exact ih _ (keeps.advance (by omega) (by omega)) (by omega) (by dsimp only; omega) (by omega)

theorem readLoop_spec (buffer : List UInt8) (stores : d.Stores nodes unread) (short : n ≤ unread.length) (enough : n ≤ fuel) :
    ∃ d' nodes', readLoop fuel d n buffer = some (d', buffer ++ unread.take n) ∧ d'.Stores nodes' (unread.drop n) := by
  obtain ⟨d', nodes', done, keeps, tail⟩ := readLoop_keeps buffer stores.keeps short (.inl stores.tail) enough
  exact ⟨d', nodes', done, keeps.stores (tail ▸ stores.tail)⟩

/-! ## Writing -/

section Write
variable {left : List Addr} {b : Addr} {node : Datanode Block} {written : List UInt8}

def filled (d : PipeData) (b : Addr) (node : Datanode Block) (written : List UInt8) : Datanodes Block :=
  d.datanode.setData b (copyInto node.data d.tail written)

theorem filled_self (here : d.datanode b = some node) (written : List UInt8) :
    d.filled b node written b = some ⟨node.next, copyInto node.data d.tail written⟩ := Datanodes.setData_self here _

theorem filled_of_ne {c : Addr} (other : c ≠ b) (node : Datanode Block) (written : List UInt8) :
    d.filled b node written c = d.datanode c := Datanodes.setData_of_ne other ..

theorem Keeps.fill (keeps : d.Keeps (left ++ [b]) unread) (here : d.datanode b = some node)
    (fits : d.tail + written.length ≤ 512) :
    ∃ before free, (d.filled b node written).bytes (left ++ [b]) = before ++ (unread ++ written) ++ free ∧
      before.length = d.head ∧ free.length = 512 - (d.tail + written.length) := by
  obtain ⟨before, free, split, length, space⟩ := keeps.split
  refine ⟨before, free.drop written.length, ?_, length, by rw [List.length_drop, space]; omega⟩
  have notLeft : ∀ c ∈ left, c ≠ b := by
    rintro c member rfl
    exact (List.nodup_append'.mp keeps.chain.nodup).2.2 member List.mem_cons_self
  have same : (d.filled b node written).bytes left = d.datanode.bytes left :=
    Datanodes.bytes_congr fun c member => Datanodes.row_congr (filled_of_ne (notLeft c member) ..)
  have total := congrArg List.length split
  have allocated := keeps.chain.allocated
  rw [Datanodes.bytes_length allocated] at total
  have prefixLength : (d.datanode.bytes left).length = left.length * 512 :=
    Datanodes.bytes_length fun c member => allocated c (List.mem_append_left _ member)
  have inside := keeps.tail
  simp only [List.length_append, List.length_singleton, space, length] at total
  have row := Datanodes.row_eq here
  rw [Datanodes.bytes_append, Datanodes.bytes_cons, Datanodes.bytes_nil, List.append_nil, row] at split
  rw [Datanodes.bytes_append, same, Datanodes.bytes_cons, Datanodes.bytes_nil, List.append_nil,
    Datanodes.row_eq (filled_self here written), toList_copyInto fits]
  -- the row of `b` is cut where the unread bytes end
  have cut : d.datanode.bytes left ++ node.data.toList.take d.tail = before ++ unread := by
    have taken := congrArg (List.take (left.length * 512 + d.tail)) split
    rw [← prefixLength, List.take_length_add_append, prefixLength,
      show left.length * 512 + d.tail = (before ++ unread).length by rw [List.length_append, length]; omega,
      List.take_left] at taken
    exact taken
  have rest : node.data.toList.drop d.tail = free := by
    have dropped := congrArg (List.drop (left.length * 512 + d.tail)) split
    rw [← prefixLength, List.drop_length_add_append, prefixLength,
      show left.length * 512 + d.tail = (before ++ unread).length by rw [List.length_append, length]; omega,
      List.drop_left] at dropped
    exact dropped
  rw [← List.append_assoc, ← List.append_assoc, cut, ← List.drop_drop, rest]
  simp

theorem Keeps.part {w : List UInt8} (keeps : d.Keeps (left ++ [b]) unread) (here : d.datanode b = some node)
    (fits : d.tail + w.length ≤ 512) :
    ({ d with datanode := d.filled b node w, tail := d.tail + w.length } : PipeData).Keeps (left ++ [b])
      (unread ++ w) := by
  obtain ⟨before, free, split, length, space⟩ := keeps.fill here fits
  exact ⟨keeps.chain.setData .., keeps.last, keeps.nonempty, keeps.head, fits, before, free, split, length, space⟩

def extended (d : PipeData) (b : Addr) (node : Datanode Block) (written : List UInt8) (c : Addr)
    (stale : Datanode Block) : Datanodes Block :=
  (((d.filled b node written).put c ⟨stale.next, stale.data⟩).setNext c none).setNext b (some c)

section Extended
variable {c : Addr} {stale : Datanode Block}

theorem extended_new (other : c ≠ b) : d.extended b node written c stale c = some ⟨none, stale.data⟩ := by
  simp [extended, Datanodes.setNext, Datanodes.put, other]

theorem extended_last (here : d.datanode b = some node) (other : c ≠ b) :
    d.extended b node written c stale b = some ⟨some c, copyInto node.data d.tail written⟩ := by
  simp [extended, Datanodes.setNext, Datanodes.put, other.symm, filled_self here]

theorem extended_of_ne {e : Addr} (notLast : e ≠ b) (notNew : e ≠ c) :
    d.extended b node written c stale e = d.datanode e := by
  simp [extended, Datanodes.setNext, Datanodes.put, notLast, notNew, filled_of_ne notLast]

theorem Keeps.extend {t : Datanode Block} {w : List UInt8} (keeps : d.Keeps (left ++ [b]) unread) (here : d.datanode b = some node)
    (full : d.tail + w.length = 512) (fresh : d.datanode c = none) :
    ({ d with datanode := d.extended b node w c t, last := some c, tail := 0 } : PipeData).Keeps
      (left ++ [b] ++ [c]) (unread ++ w) := by
  obtain ⟨before, free, split, length, space⟩ := keeps.fill here full.le
  have nothing : free = [] := List.eq_nil_of_length_eq_zero (by omega)
  have outside : ∀ e ∈ left ++ [b], e ≠ c := by
    rintro e member rfl
    have := keeps.chain.allocated e member
    rw [fresh] at this
    cases this
  have other : c ≠ b := (outside b (by simp)).symm
  have notLast : ∀ e ∈ left, e ≠ b := by
    rintro e member rfl
    exact (List.nodup_append'.mp keeps.chain.nodup).2.2 member List.mem_cons_self
  have kept : ∀ e ∈ left, d.extended b node w c t e = d.datanode e := fun e member =>
    extended_of_ne (notLast e member) (outside e (by simp [member]))
  have rows : ∀ e ∈ left ++ [b], (d.extended b node w c t).row e = (d.filled b node w).row e := by
    intro e member
    rcases List.mem_append.mp member with inLeft | isLast
    · rw [Datanodes.row_congr (kept e inLeft), Datanodes.row_congr (filled_of_ne (notLast e inLeft) ..)]
    · rw [List.mem_singleton.mp isLast, Datanodes.row_eq (extended_last here other), Datanodes.row_eq (filled_self here _)]
  have chain := keeps.chain.extend kept (extended_last here other) rfl
    (extended_new other) rfl
  refine ⟨chain, by simp, by simp, keeps.head, Nat.zero_le 512, before, t.data.toList, ?_, length,
    t.data.length_toList⟩
  change (d.extended b node w c t).bytes (left ++ [b] ++ [c]) = _
  rw [Datanodes.bytes_append, Datanodes.bytes_congr rows, split, nothing, Datanodes.bytes_cons, Datanodes.bytes_nil,
    Datanodes.row_eq (extended_new other)]
  simp

end Extended
end Write

structure Grants (s : Datanodes Block) (grants : List (Datanodes.Grant Block)) : Prop where
  fresh : ∀ grant ∈ grants, ∃ a stale, grant = some (a, stale) ∧ s a = none
  apart : (grants.map fun grant => grant.map Prod.fst).Nodup

theorem Grants.toFresh {s : Datanodes Block} {grants : List (Datanodes.Grant Block)} (granted : Grants s grants) :
    s.Fresh grants ∧ grants.takeWhile Option.isSome = grants := by
  have some : ∀ grant ∈ grants, grant.isSome := by
    intro grant member
    obtain ⟨a, stale, rfl, -⟩ := granted.fresh grant member
    rfl
  have blocks : (Datanodes.blocksOf grants).map Option.some = grants.map fun grant => grant.map Prod.fst := by
    rw [Datanodes.blocksOf, List.map_filterMap_some_eq_filter_map_isSome, List.filter_eq_self]
    intro found member
    obtain ⟨grant, inside, rfl⟩ := List.mem_map.mp member
    rw [Option.isSome_map]
    exact some grant inside
  refine ⟨⟨fun a member => ?_, ?_⟩, List.takeWhile_eq_self_iff.mpr some⟩
  · obtain ⟨grant, inside, found⟩ := List.mem_filterMap.mp member
    obtain ⟨b, stale, rfl, unused⟩ := granted.fresh grant inside
    cases found
    exact unused
  · have apart := granted.apart
    rw [← blocks] at apart
    exact apart.of_map

theorem fresh_extended {b c : Addr} {node stale : Datanode Block} {written : List UInt8}
    {grants : List (Datanodes.Grant Block)} (fresh : d.datanode.Fresh (some (c, stale) :: grants))
    (here : d.datanode b = some node) : (d.extended b node written c stale).Fresh grants := by
  refine fresh.tail.congr fun a member => extended_of_ne ?_ ?_
  · rintro rfl
    rw [fresh.tail.unused a member] at here
    cases here
  · rintro rfl
    exact fresh.head.2 member

/-- The allocations that are answered before the first that is not. -/
def answered (grants : List (Datanodes.Grant Block)) : Nat := (grants.takeWhile Option.isSome).length

theorem answered_none {grants : List (Datanodes.Grant Block)} (answer : grants.head?.join = none) : answered grants = 0 := by
  cases grants with
  | nil => rfl
  | cons grant later =>
      cases grant with
      | none => rfl
      | some found => cases answer

theorem filled_setNext (here : d.datanode b = some node) (ends : node.next = none) (written : List UInt8) :
    (d.filled b node written).setNext b none = d.filled b node written := by
  rw [Datanodes.setNext, filled_self here, Option.map_some, ends]
  exact Function.update_eq_self_iff.mpr (by rw [filled_self here, ends])

/-- By induction on the rounds. The bytes that fit in the last datanode and in those granted are written. -/
theorem writeLoop_keeps {k : Nat} {x : List UInt8} {grants : List (Datanodes.Grant Block)} (keeps : d.Keeps nodes unread)
    (fresh : d.datanode.Fresh grants) (enough : x.length + (if d.tail = 512 then 1 else 0) ≤ k) :
    ∃ d' nodes' written rest, writeLoop k d x.length x grants = some (d', rest) ∧ x = written ++ rest ∧
      d'.Keeps nodes' (unread ++ written) ∧ written.length = min x.length (512 * (answered grants + 1) - d.tail) ∧
      (d.tail < 512 ∨ x ≠ [] → d.tail + x.length < 512 * (answered grants + 1) → d'.tail < 512) := by
  generalize size : x.length = n at *
  induction k generalizing d nodes unread n x grants with
  | zero =>
      obtain rfl : x = [] := List.eq_nil_of_length_eq_zero (by omega)
      subst size
      exact ⟨d, nodes, [], [], by simp [writeLoop], rfl, by simpa using keeps, by simp,
        fun room _ => room.resolve_right fun some => some rfl⟩
  | succ k ih =>
      cases n with
      | zero =>
          obtain rfl : x = [] := List.eq_nil_of_length_eq_zero size
          exact ⟨d, nodes, [], [], by simp [writeLoop], rfl, by simpa using keeps, by simp,
            fun room _ => room.resolve_right fun some => some rfl⟩
      | succ n =>
          obtain ⟨left, b, rfl⟩ : ∃ left b, nodes = left ++ [b] :=
            ⟨_, _, (List.dropLast_append_getLast keeps.nonempty).symm⟩
          have last : d.last = some b := keeps.last.trans (by simp)
          obtain ⟨node, here⟩ := Option.isSome_iff_exists.mp (keeps.chain.allocated b (by simp))
          have ends : node.next = none := by
            have link := keeps.chain.links.split.2
            rw [seg_nil, Datanodes.link, here] at link
            exact link
          have inside := keeps.tail
          generalize chosen : (if n + 1 < ramfsDatanodeSize - d.tail then n + 1 else ramfsDatanodeSize - d.tail) = chunk
          obtain ⟨most, fits, all, positive⟩ := chunk_bounds inside chosen
          have length : (x.take chunk).length = chunk := by rw [List.length_take]; omega
          have rest : (x.drop chunk).length = n + 1 - chunk := by rw [List.length_drop, size]
          have nonempty : x ≠ [] := by
            rintro rfl
            cases size
          rw [writeLoop, last]
          simp only [here, chosen, Option.bind_eq_bind, Option.bind_some, ends]
          by_cases whole : d.tail + chunk = 512
          · rw [if_pos (show d.tail + chunk = ramfsDatanodeSize from whole)]
            cases answer : grants.head?.join with
            | none =>
                have stored := keeps.part (w := x.take chunk) here (by omega)
                rw [length] at stored
                refine ⟨{ d with datanode := d.filled b node (x.take chunk), tail := d.tail + chunk }, left ++ [b],
                  x.take chunk, x.drop chunk, ?_, (List.take_append_drop chunk x).symm, stored, ?_, ?_⟩
                · have same := filled_setNext here ends (x.take chunk)
                  simp only [Datanodes.ramfsAllocateDatanodes, List.head?_cons, Option.join_some]
                  rw [Option.bind_some,
                    show d.datanode.setData b (copyInto node.data d.tail (x.take chunk)) = d.filled b node (x.take chunk) from rfl,
                    same, last]
                  rfl
                · rw [length, answered_none answer]
                  omega
                · rw [answered_none answer]
                  omega
            | some grant =>
                obtain ⟨c, stale⟩ := grant
                obtain ⟨later, rfl⟩ := Datanodes.exists_cons_of_answer answer
                have stored := keeps.extend (w := x.take chunk) (t := stale) here (by omega) fresh.head.1
                have next : n + 1 - chunk + (if (0 : Nat) = 512 then 1 else 0) ≤ k := by
                  split_ifs at enough <;> simp <;> omega
                obtain ⟨d', nodes', written, unwritten, done, split, kept, length', room⟩ :=
                  ih stored (fresh_extended fresh here) (n + 1 - chunk) rest next
                have count : answered (some (c, stale) :: later) = answered later + 1 := rfl
                dsimp only at length' room
                refine ⟨d', nodes', x.take chunk ++ written, unwritten, done, ?_, ?_, ?_, ?_⟩
                · rw [List.append_assoc, ← split, List.take_append_drop]
                · rw [← List.append_assoc]
                  exact kept
                · rw [List.length_append, length, length', count]
                  omega
                · rw [count]
                  exact fun _ small => room (.inl (by decide)) (by omega)
          · have stored := keeps.part (w := x.take chunk) here (by omega)
            rw [length, last] at stored
            rw [if_neg (show ¬ d.tail + chunk = ramfsDatanodeSize from whole)]
            have nothing : n + 1 - chunk = 0 := by omega
            have empty : x.drop chunk = [] := List.eq_nil_of_length_eq_zero (by omega)
            rw [nothing, empty]
            refine ⟨_, left ++ [b], x, [], by rw [writeLoop], (List.append_nil x).symm, ?_, ?_, ?_⟩
            · rw [List.take_of_length_le (by omega)] at stored ⊢
              exact stored
            · omega
            · exact fun _ _ => (by omega : d.tail + chunk < 512)

theorem writeLoop_spec {k : Nat} {x : List UInt8} {grants : List (Datanodes.Grant Block)} (stores : d.Stores nodes unread)
    (granted : Grants d.datanode grants) (room : (d.tail + x.length) / 512 ≤ grants.length)
    (enough : x.length ≤ k) :
    ∃ d' nodes', writeLoop k d x.length x grants = some (d', []) ∧ d'.Stores nodes' (unread ++ x) := by
  obtain ⟨fresh, all⟩ := granted.toFresh
  have tail := stores.tail
  obtain ⟨d', nodes', written, rest, done, split, keeps, length, below⟩ := writeLoop_keeps (x := x) (k := k) stores.keeps fresh
    (by rw [if_neg (by omega)]; omega)
  rw [answered, all] at length below
  have whole : written.length = x.length := by omega
  obtain rfl : rest = [] := by
    have := congrArg List.length split
    rw [List.length_append] at this
    exact List.eq_nil_of_length_eq_zero (by omega)
  rw [List.append_nil] at split
  subst split
  exact ⟨d', nodes', done, keeps.stores (below (.inl tail) (by omega))⟩

end Kerosene.Ramfs.PipeData
