import Kerosene.Ramfs.Overwrite

/-!
# How long `write_file` leaves the chain

Whether it succeeds or not.
-/

namespace Kerosene.Ramfs
open Lib

/-! ## An allocation that fails -/

namespace Datanodes
variable {δ : Type*} {s s' s₁ : Datanodes δ} {clear : Option δ} {grants : List (Grant δ)} {start current : Addr}
variable {built : List Addr} {count : Nat}

-- the chain as it stands where no block is granted
theorem Building.cut {node : Datanode δ} (building : s.Building start built current) (here : s current = some node) :
    (s.setNext current none).Chain (some start) (built ++ [current]) := by
  refine ⟨building.links.relink (fun b member => ?_) ?_, fun b member => ?_⟩
  · have other : b ≠ current := by
      rintro rfl
      exact (List.nodup_append'.mp building.nodup).2.2 member List.mem_cons_self
    rw [link, link, setNext_of_ne other]
  · rw [link, setNext_self here]
    rfl
  · rcases eq_or_ne b current with rfl | other
    · rw [setNext_self here]
      rfl
    · rw [setNext_of_ne other]
      exact building.allocated b member

-- `s₁` has the datanodes under construction, and otherwise those of `s`
theorem allocateLoop_fails (building : s₁.Building start built current) (others : ∀ a, a ∉ built ++ [current] → s₁ a = s a)
    (unused : ∀ a ∈ built ++ [current], s a = none) (fresh : s₁.Fresh grants)
    (done : allocateLoop clear start count s₁ current grants = some (none, s')) : s' = s := by
  induction count generalizing s₁ built current grants with
  | zero => cases done
  | succ count ih =>
      obtain ⟨node, here⟩ := Option.isSome_iff_exists.mp (building.allocated current (by simp))
      cases answer : grants.head?.join with
      | none =>
          rw [allocateLoop, answer] at done
          simp only [removeDatanodeChain_chain (building.cut here), Option.bind_eq_bind, Option.bind_some, Option.pure_def,
            Option.some.injEq, Prod.mk.injEq, true_and] at done
          funext a
          rw [← done, freed]
          split_ifs with taken
          · exact (unused a taken).symm
          · have other : a ≠ current := by
              rintro rfl
              exact taken (by simp)
            rw [setNext_of_ne other, others a taken]
      | some grant =>
          obtain ⟨block, stale⟩ := grant
          obtain ⟨rest, rfl⟩ := exists_cons_of_answer answer
          have free := fresh.head.1
          have notBuilt : block ∉ built ++ [current] := fun again => by
            have := building.allocated block again
            rw [free] at this
            cases this
          rw [allocateLoop_some building here free] at done
          refine ih (building.attach here free) (fun a outside => ?_) (fun a member => ?_) (fresh.attached here) done
          · rw [List.mem_append, List.mem_singleton, not_or] at outside
            have notCurrent : a ≠ current := by
              rintro rfl
              exact outside.1 (by simp)
            rw [attached_of_ne outside.2 notCurrent, others a outside.1]
          · rcases List.mem_append.mp member with old | isNew
            · exact unused a old
            · rw [List.mem_singleton.mp isNew, ← others block notBuilt]
              exact free

theorem ramfsAllocateDatanodes_fails (fresh : s.Fresh grants)
    (done : s.ramfsAllocateDatanodes count clear grants = some (none, s')) : s' = s := by
  cases count with
  | zero =>
      cases done
      rfl
  | succ count =>
      rw [ramfsAllocateDatanodes] at done
      cases answer : grants.head?.join with
      | none =>
          rw [answer] at done
          cases done
          rfl
      | some grant =>
          obtain ⟨start, stale⟩ := grant
          obtain ⟨rest, rfl⟩ := exists_cons_of_answer answer
          obtain ⟨free, notAgain⟩ := fresh.head
          simp only [answer] at done
          generalize made : s.put start ⟨stale.next, cleared clear stale.data⟩ = s₁ at done
          have here : s₁ start = some ⟨stale.next, cleared clear stale.data⟩ := by
            rw [← made]
            exact Function.update_self ..
          have others : ∀ a, a ≠ start → s₁ a = s a := by
            intro a other
            rw [← made]
            exact Function.update_of_ne other ..
          split_ifs at done
          · cases done
          · have building : s₁.Building start [] start := ⟨⟨rfl, rfl⟩, by simp [here], by simp⟩
            exact allocateLoop_fails building (fun a outside => others a (by simpa using outside)) (by simpa using free)
              (fresh.tail.congr fun a member => others a (by rintro rfl; exact notAgain member)) done

end Datanodes

/-! ## The stages of the write -/

namespace Cursor
variable {c c' : Cursor} {first : Option Addr} {nodes : List Addr} {j offset count n actual : Nat} {buffer : List UInt8}
variable {err : FsErr}

theorem At.weaken {written written' : List UInt8} (at_ : c.At first nodes j written) (shorter : written' <+: written) :
    c.At first nodes j written' :=
  ⟨at_.chain, at_.here, shorter.trans at_.stored, at_.fresh⟩

theorem At.lt {written : List UInt8} (at_ : c.At first nodes j written) : j < nodes.length :=
  (List.getElem?_eq_some_iff.mp at_.here).1

theorem At.before (at_ : c.At first nodes j []) (small : offset ≤ 512) :
    ∃ written, written.length = 512 * j + offset ∧ c.At first nodes j written := by
  have more := at_.lt
  have length := Datanodes.bytes_length at_.chain.allocated
  refine ⟨(c.datanode.bytes nodes).take (512 * j + offset), ?_, at_.chain, at_.here, List.take_prefix _ _, at_.fresh⟩
  rw [List.length_take]
  omega

theorem At.cut (at_ : c.At first nodes j []) :
    Cursor.At ⟨c.datanode.setNext c.start none, c.start, c.grants⟩ first (nodes.take (j + 1)) j [] := by
  obtain ⟨node, here⟩ := at_.node
  obtain ⟨whole, takeLength, notBefore⟩ := at_.split
  have upTo : nodes.take (j + 1) = nodes.take j ++ [c.start] := by
    rw [List.take_add_one, at_.here]
    rfl
  have keeps : ∀ a, a ≠ c.start → c.datanode.setNext c.start none a = c.datanode a := fun a other =>
    Datanodes.setNext_of_ne other ..
  refine ⟨?_, ?_, List.nil_prefix, at_.fresh.change (a := c.start) (by rw [here]; rfl) keeps⟩
  · have old := at_.chain
    rw [whole] at old
    rw [upTo]
    exact old.splice (fun a member => keeps a (by rintro rfl; exact notBefore member)) (Datanodes.setNext_self here none)
      ⟨rfl, by simp⟩
  · rw [upTo, List.getElem?_append_right (by omega), takeLength, Nat.sub_self]
    rfl

theorem At.allocateNext_shape {done_ : Bool} (at_ : c.At first nodes j []) (done : c.allocateNext count = some (done_, c')) :
    ∃ nodes', c'.At first nodes' j [] ∧ (done_ = true → nodes'.length = j + 1 + count) := by
  have more := at_.lt
  cases done_ with
  | true =>
      obtain ⟨new, length, at'⟩ := at_.allocateNext (Nat.zero_le _) done
      refine ⟨_, at', fun _ => ?_⟩
      rw [List.length_append, List.length_take]
      omega
  | false =>
      simp only [Cursor.allocateNext, Option.bind_eq_bind, Option.bind_eq_some_iff, Option.pure_def, Option.some.injEq,
        Prod.mk.injEq, Prod.exists] at done
      obtain ⟨new, s, allocated, there, rfl⟩ := done
      obtain rfl := Option.isSome_eq_false_iff.mp there |> Option.isNone_iff_eq_none.mp
      obtain rfl := Datanodes.ramfsAllocateDatanodes_fails at_.fresh allocated
      have at' := at_.cut
      exact ⟨_, ⟨at'.chain, at'.here, List.nil_prefix, at'.fresh.drop count⟩, fun impossible => absurd impossible (by decide)⟩

theorem At.advance_shape {done_ : Bool} (at_ : c.At first nodes j []) (done : c.advance 1 = some (done_, c')) :
    ∃ nodes' j', c'.At first nodes' j' [] ∧ j ≤ j' ∧
      (done_ = true → j' = j + 1 ∧ nodes'.length = max nodes.length (j + 2)) := by
  have bound := at_.lt
  obtain ⟨node, here⟩ := at_.node
  rw [Cursor.advance, here, Option.bind_eq_bind, Option.bind_some] at done
  have follows := at_.chain.links.next_getElem? at_.here
  rw [Datanodes.link, here, Option.bind_some] at follows
  cases next : node.next with
  | some a =>
      rw [next] at follows
      have more : j + 1 < nodes.length := (List.getElem?_eq_some_iff.mp follows.symm).1
      obtain ⟨c₁, followed, moved⟩ := at_.follow more
      rw [next, followed] at done
      cases done
      exact ⟨nodes, j + 1, moved, Nat.le_succ j, fun _ => ⟨rfl, by omega⟩⟩
  | none =>
      rw [next] at follows
      have last : nodes.length ≤ j + 1 := List.getElem?_eq_none_iff.mp follows.symm
      simp only [next, Option.bind_eq_bind, Option.bind_eq_some_iff] at done
      obtain ⟨⟨allocated, c₁⟩, new, done⟩ := done
      obtain ⟨nodes₁, at₁, length⟩ := at_.allocateNext_shape new
      cases allocated with
      | false =>
          cases done
          exact ⟨nodes₁, j, at₁, le_rfl, fun impossible => absurd impossible (by decide)⟩
      | true =>
          have length := length rfl
          obtain ⟨c₂, followed, moved⟩ := at₁.follow (by omega)
          simp only [if_true, followed, Option.bind_some, Option.pure_def, Option.some.injEq, Prod.mk.injEq] at done
          obtain ⟨rfl, rfl⟩ := done
          exact ⟨nodes₁, j + 1, moved, Nat.le_succ j, fun _ => ⟨rfl, by omega⟩⟩

/-- The cursor after a write of `size` bytes at `p`, which started at datanode `j` of a chain of `length`. -/
def Leaves (c' : Cursor) (first : Option Addr) (length j p size : Nat) (err : FsErr) : Prop :=
  ∃ nodes' j', c'.At first nodes' j' [] ∧ j ≤ j' ∧ (err = .success → p + size ≤ 512 * (j' + 1) ∧
    nodes'.length = if 512 ≤ size - padding p then (p + size) / 512 + 1 else max length ((p + size - 1) / 512 + 1))

theorem At.leaves_failed {size p length : Nat} (at_ : c.At first nodes j []) (failed : err ≠ .success) :
    c.Leaves first length j p size err :=
  ⟨nodes, j, at_, le_rfl, fun success => absurd success failed⟩

theorem At.writeLoop_shape {fuel : Nat} (at_ : c.At first nodes j []) (nonempty : buffer ≠ [])
    (room : buffer.length ≤ 512 * (nodes.length - j)) (enough : buffer.length < fuel) :
    ∃ c' j', c.writeLoop fuel buffer actual = some (.success, actual + buffer.length, c') ∧ c'.At first nodes j' [] ∧
      EndsIn j' (512 * j + buffer.length) := by
  obtain ⟨written, length, before⟩ := at_.before (Nat.zero_le 512)
  obtain ⟨c', j', done, at', ends⟩ := writeLoop_spec before length nonempty room enough
  rw [List.length_append, length] at ends
  exact ⟨c', j', done, at'.weaken List.nil_prefix, ends⟩

theorem At.writeAligned_shape (at_ : c.At first nodes j []) (nonempty : buffer ≠ [])
    (done : c.writeAligned buffer actual = some (err, n, c')) :
    c'.Leaves first nodes.length j (512 * j) buffer.length err := by
  have size : ramfsDatanodeSize = 512 := rfl
  have pad : padding (512 * j) = 0 := by
    rw [padding]
    omega
  have positive := List.length_pos_iff.mpr nonempty
  have bound := at_.lt
  rw [Cursor.writeAligned, size] at done
  by_cases many : buffer.length / 512 > 0
  · obtain ⟨node, here⟩ := at_.node
    simp only [if_pos many, here, Option.bind_eq_bind, Option.bind_some, Option.bind_eq_some_iff] at done
    obtain ⟨⟨allocated, c₁⟩, new, done⟩ := done
    obtain ⟨nodes₁, at₁, length⟩ := at_.allocateNext_shape new
    cases allocated with
    | false =>
        cases done
        exact at₁.leaves_failed (by decide)
    | true =>
        have length := length rfl
        obtain ⟨c₂, j', wrote, at₂, low, high⟩ := at₁.writeLoop_shape nonempty
          (by omega) (Nat.lt_succ_self _)
        rw [if_pos rfl, wrote] at done
        cases done
        refine ⟨nodes₁, j', at₂, by omega, fun _ => ⟨high, ?_⟩⟩
        rw [length, pad, Nat.sub_zero, if_pos (by omega)]
        omega
  · obtain ⟨c₂, j', wrote, at₂, low, high⟩ := at_.writeLoop_shape nonempty
      (by omega) (Nat.lt_succ_self _)
    rw [if_neg many, wrote] at done
    cases done
    refine ⟨nodes, j', at₂, by omega, fun _ => ⟨high, ?_⟩⟩
    rw [pad, Nat.sub_zero, if_neg (by omega)]
    omega

theorem At.writeWithin_shape {o : Nat} {p : Nat} (at_ : c.At first nodes j []) (position : p = 512 * j + o) (small : o < 512)
    (nonempty : buffer ≠ []) (done : c.writeWithin buffer o = some (err, n, c')) :
    c'.Leaves first nodes.length j p buffer.length err := by
  have size : ramfsDatanodeSize = 512 := rfl
  have positive := List.length_pos_iff.mpr nonempty
  have bound := at_.lt
  rw [Cursor.writeWithin] at done
  by_cases inside : o > 0
  · have pad : padding p = 512 - o := by
      rw [padding]
      omega
    generalize chosen : (if buffer.length ≤ ramfsDatanodeSize - o then buffer.length else ramfsDatanodeSize - o) =
      writeSize
    have chunk : writeSize ≤ buffer.length ∧ o + writeSize ≤ 512 ∧ 0 < writeSize ∧
        (o + writeSize = 512 ∨ writeSize = buffer.length) := by
      split_ifs at chosen <;> omega
    have taken : (buffer.take writeSize).length = writeSize := by rw [List.length_take]; omega
    obtain ⟨c₁, stored, -, at₁, -⟩ := at_.store_splice (o := o) (x := buffer.take writeSize) (by omega)
    simp only [if_pos inside, chosen, stored, Option.bind_eq_bind, Option.bind_some] at done
    by_cases last : buffer.length - writeSize = 0
    · rw [if_pos last] at done
      cases done
      refine ⟨nodes, j, at₁, le_rfl, fun _ => ⟨by omega, ?_⟩⟩
      rw [pad, if_neg (by omega)]
      omega
    · simp only [if_neg last, Option.bind_eq_some_iff] at done
      obtain ⟨⟨there, c₂⟩, advanced, done⟩ := done
      obtain ⟨nodes₂, j₂, at₂, later, moved⟩ := at₁.advance_shape advanced
      cases there with
      | false =>
          cases done
          exact ⟨nodes₂, j₂, at₂, later, fun impossible => absurd impossible (by decide)⟩
      | true =>
          obtain ⟨rfl, length⟩ := moved rfl
          have rest : (buffer.drop writeSize).length = buffer.length - writeSize := List.length_drop ..
          obtain ⟨nodes₃, j₃, at₃, after, left⟩ := at₂.writeAligned_shape (by rw [← List.length_pos_iff]; omega) done
          refine ⟨nodes₃, j₃, at₃, by omega, fun success => ?_⟩
          obtain ⟨covers, long⟩ := left success
          have aligned : padding (512 * (j + 1)) = 0 := by
            rw [padding]
            omega
          have total : 512 * (j + 1) + (buffer.length - writeSize) = p + buffer.length := by omega
          rw [rest, total] at covers
          rw [rest, total, aligned, length] at long
          refine ⟨covers, ?_⟩
          rw [long, pad]
          split_ifs <;> omega
  · have start : p = 512 * j := by omega
    rw [if_neg inside] at done
    rw [start]
    exact at_.writeAligned_shape nonempty done

theorem At.writeFile_shape {p : Nat} (at_ : c.At first nodes j []) (position : p = 512 * j + offset) (small : offset ≤ 512)
    (nonempty : buffer ≠ []) (done : c.writeFile buffer offset = some (err, n, c')) :
    c'.Leaves first nodes.length j p buffer.length err := by
  have size : ramfsDatanodeSize = 512 := rfl
  have positive := List.length_pos_iff.mpr nonempty
  rw [Cursor.writeFile] at done
  by_cases full : offset ≥ ramfsDatanodeSize
  · have whole : offset = 512 := by omega
    subst whole
    rw [if_pos full, Option.bind_eq_bind] at done
    obtain ⟨⟨there, c₁⟩, advanced, done⟩ := Option.bind_eq_some_iff.mp done
    obtain ⟨nodes₁, j₁, at₁, later, moved⟩ := at_.advance_shape advanced
    cases there with
    | false =>
        cases done
        exact ⟨nodes₁, j₁, at₁, later, fun impossible => absurd impossible (by decide)⟩
    | true =>
        obtain ⟨rfl, length⟩ := moved rfl
        obtain ⟨nodes₂, j₂, at₂, after, left⟩ := at₁.writeWithin_shape (p := p) (o := 0) (by omega) (by omega) nonempty done
        refine ⟨nodes₂, j₂, at₂, by omega, fun success => ?_⟩
        obtain ⟨covers, long⟩ := left success
        refine ⟨covers, ?_⟩
        rw [long, length]
        split_ifs <;> omega
  · rw [if_neg full] at done
    exact at_.writeWithin_shape position (by omega) nonempty done

end Cursor
end Kerosene.Ramfs
