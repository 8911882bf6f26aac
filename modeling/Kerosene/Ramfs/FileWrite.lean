import Kerosene.Lib.Splice
import Kerosene.Ramfs.File

/-!
# What `write_file` leaves in the chain
-/

namespace Kerosene.Ramfs
open Lib

namespace Datanodes

theorem setNext_row (s : Datanodes Block) (a b : Addr) (next : Option Addr) : (s.setNext a next).row b = s.row b := by
  by_cases same : b = a
  · subst same
    cases here : s b <;> simp [row, setNext, here]
  · simp [row, setNext, same]

end Datanodes

namespace Cursor
variable {c c' : Cursor} {first : Option Addr} {nodes : List Addr} {j offset count : Nat} {written bytes buffer : List UInt8}

/-- The cursor is at datanode `j` of the chain, whose bytes begin with `written`. -/
structure At (c : Cursor) (first : Option Addr) (nodes : List Addr) (j : Nat) (written : List UInt8) : Prop where
  chain : c.datanode.Chain first nodes
  here : nodes[j]? = some c.start
  stored : written <+: c.datanode.bytes nodes
  fresh : c.datanode.Fresh c.grants

theorem At.split (at_ : c.At first nodes j written) :
    nodes = nodes.take j ++ c.start :: nodes.drop (j + 1) ∧ (nodes.take j).length = j ∧ c.start ∉ nodes.take j := by
  obtain ⟨bound, here⟩ := List.getElem?_eq_some_iff.mp at_.here
  have whole : nodes = nodes.take j ++ c.start :: nodes.drop (j + 1) := by
    rw [← here, List.getElem_cons_drop, List.take_append_drop]
  refine ⟨whole, by rw [List.length_take]; omega, fun again => ?_⟩
  have nodup := at_.chain.nodup
  rw [whole] at nodup
  exact (List.nodup_append'.mp nodup).2.2 again List.mem_cons_self

theorem At.node (at_ : c.At first nodes j written) : ∃ node, c.datanode c.start = some node :=
  Option.isSome_iff_exists.mp (at_.chain.allocated c.start (List.mem_of_getElem? at_.here))

theorem At.bytes_take (at_ : c.At first nodes j written) : (c.datanode.bytes (nodes.take j)).length = 512 * j := by
  rw [Datanodes.bytes_length fun a member => at_.chain.allocated a (List.mem_of_mem_take member), at_.split.2.1,
    Nat.mul_comm]

theorem At.store_splice {x : List UInt8} {o : Nat} (at_ : c.At first nodes j written) (fits : o + x.length ≤ 512) :
    ∃ c', c.store o x = some c' ∧ c'.grants = c.grants ∧ c'.At first nodes j [] ∧
      c'.datanode.bytes nodes = splice (c.datanode.bytes nodes) (512 * j + o) x := by
  obtain ⟨node, here⟩ := at_.node
  obtain ⟨whole, -, notBefore⟩ := at_.split
  have notAfter : c.start ∉ nodes.drop (j + 1) := by
    have nodup := at_.chain.nodup
    rw [whole] at nodup
    exact (List.nodup_cons.mp (List.nodup_append'.mp nodup).2.1).1
  generalize changed : c.datanode.setData c.start (copyInto node.data o x) = s
  have kept : ∀ l, c.start ∉ l → s.bytes l = c.datanode.bytes l := fun l outside =>
    Datanodes.bytes_congr fun a member => Datanodes.row_congr <| by
      rw [← changed]
      exact Datanodes.setData_of_ne (by rintro rfl; exact outside member) ..
  have row : s.row c.start = splice (c.datanode.row c.start) o x := by
    rw [Datanodes.row_eq here, splice, ← toList_copyInto fits, ← changed, Datanodes.row_eq (Datanodes.setData_self here _)]
  refine ⟨⟨s, c.start, c.grants⟩, by rw [Cursor.store, here, ← changed]; rfl, rfl,
    ⟨by rw [← changed]; exact at_.chain.setData _ _, at_.here, List.nil_prefix, ?_⟩, ?_⟩
  · refine at_.fresh.change (a := c.start) (by rw [here]; rfl) fun b other => ?_
    rw [← changed]
    exact Datanodes.setData_of_ne other ..
  · change s.bytes nodes = _
    rw [whole, Datanodes.bytes_append, Datanodes.bytes_cons, kept _ notBefore, kept _ notAfter, row,
      Datanodes.bytes_append, Datanodes.bytes_cons, ← at_.bytes_take, append_splice,
      splice_append (by rw [Datanodes.row_length here]; exact fits)]

theorem At.store {b : List UInt8} {o : Nat} (at_ : c.At first nodes j written) (offsetAt : written.length = 512 * j + o)
    (fits : o + b.length ≤ 512) :
    ∃ c', c.store o b = some c' ∧ c'.At first nodes j (written ++ b) := by
  obtain ⟨c', stored, -, at', all⟩ := at_.store_splice fits
  refine ⟨c', stored, at'.chain, at'.here, ?_, at'.fresh⟩
  rw [all, ← offsetAt, splice, ← List.prefix_iff_eq_take.mp at_.stored]
  exact List.prefix_append _ _

theorem At.follow (at_ : c.At first nodes j written) (more : j + 1 < nodes.length) :
    ∃ c', c.follow = some c' ∧ c'.At first nodes (j + 1) written := by
  have next : c.datanode.link c.start = some nodes[j + 1] := by
    rw [at_.chain.links.next_getElem? at_.here, List.getElem?_eq_getElem more]
  exact ⟨⟨c.datanode, nodes[j + 1], c.grants⟩, by rw [Cursor.follow, next]; rfl, at_.chain,
    List.getElem?_eq_getElem more, at_.stored, at_.fresh⟩

theorem At.relink {s : Datanodes Block} {l : List Addr} {new : Addr} {rest : List (Datanodes.Grant Block)}
    (at_ : c.At first nodes j written) (small : written.length ≤ 512 * (j + 1)) (chain : s.Chain (some new) l)
    (others : ∀ a, a ∉ l → s a = c.datanode a) (news : ∀ a ∈ l, c.datanode a = none) (fresh : s.Fresh rest) :
    Cursor.At ⟨s.setNext c.start (some new), c.start, rest⟩ first (nodes.take (j + 1) ++ l) j written := by
  obtain ⟨node, here⟩ := at_.node
  obtain ⟨whole, takeLength, notBefore⟩ := at_.split
  have notNew : ∀ a ∈ nodes, a ∉ l := by
    intro a member again
    have := at_.chain.allocated a member
    rw [news a again] at this
    cases this
  have startIn : c.start ∈ nodes := List.mem_of_getElem? at_.here
  have upTo : nodes.take (j + 1) = nodes.take j ++ [c.start] := by
    rw [List.take_add_one, at_.here]
    rfl
  have sameStart : s c.start = some node := by rw [others _ (notNew _ startIn), here]
  generalize made : s.setNext c.start (some new) = s'
  have keeps : ∀ a, a ≠ c.start → s' a = s a := by
    subst made
    exact fun a other => Datanodes.setNext_of_ne other ..
  have linked : s' c.start = some ⟨some new, node.data⟩ := by
    subst made
    exact Datanodes.setNext_self sameStart _
  have before : ∀ a ∈ nodes.take j, s' a = c.datanode a := fun a member => by
    rw [keeps a (by rintro rfl; exact notBefore member), others a (notNew a (List.mem_of_mem_take member))]
  have tail : s'.Chain (some new) l := chain.congr fun a member => keeps a (by rintro rfl; exact notNew _ startIn member)
  have spliced : s'.Chain first (nodes.take (j + 1) ++ l) := by
    have old := at_.chain
    rw [whole] at old
    rw [upTo, List.append_assoc]
    exact old.splice before linked tail
  have rows : ∀ a ∈ nodes.take (j + 1), s'.row a = c.datanode.row a := by
    rw [upTo]
    intro a member
    rcases List.mem_append.mp member with earlier | isStart
    · rw [Datanodes.row_congr (before a earlier)]
    · rw [List.mem_singleton.mp isStart, Datanodes.row_eq linked, Datanodes.row_eq here]
  refine ⟨spliced, ?_, ?_, fresh.change (a := c.start) (by rw [sameStart]; rfl) keeps⟩
  · rw [upTo, List.append_assoc, List.getElem?_append_right (by omega), takeLength, Nat.sub_self]
    rfl
  · change _ <+: s'.bytes (nodes.take (j + 1) ++ l)
    rw [Datanodes.bytes_append, Datanodes.bytes_congr rows]
    refine List.IsPrefix.trans ?_ (List.prefix_append _ _)
    have length : (c.datanode.bytes (nodes.take (j + 1))).length = 512 * (j + 1) := by
      rw [Datanodes.bytes_length fun a member => at_.chain.allocated a (List.mem_of_mem_take member), upTo,
        List.length_append, takeLength, List.length_singleton, Nat.mul_comm]
    refine List.prefix_of_prefix_length_le at_.stored ?_ (by rw [length]; exact small)
    conv_rhs => rw [← List.take_append_drop (j + 1) nodes, Datanodes.bytes_append]
    exact List.prefix_append _ _

theorem At.allocateNext (at_ : c.At first nodes j written) (small : written.length ≤ 512 * (j + 1))
    (done : c.allocateNext count = some (true, c')) :
    ∃ new, new.length = count ∧ c'.At first (nodes.take (j + 1) ++ new) j written := by
  simp only [Cursor.allocateNext, Option.bind_eq_bind, Option.bind_eq_some_iff, Option.pure_def, Option.some.injEq,
    Prod.mk.injEq, Prod.exists] at done
  obtain ⟨new, s, allocated, there, rfl⟩ := done
  obtain ⟨new, rfl⟩ := Option.isSome_iff_exists.mp there
  obtain ⟨given, rfl, chain, news⟩ := Datanodes.ramfsAllocateDatanodes_spec at_.fresh allocated
  exact ⟨given.map Prod.fst, List.length_map .., at_.relink small chain news.others news.news news.fresh⟩

theorem At.advance (at_ : c.At first nodes j written) (small : written.length ≤ 512 * (j + 1)) (positive : 0 < count)
    (done : c.advance count = some (true, c')) : ∃ nodes', c'.At first nodes' (j + 1) written := by
  obtain ⟨node, here⟩ := at_.node
  rw [Cursor.advance, here, Option.bind_eq_bind, Option.bind_some] at done
  cases next : node.next with
  | some a =>
      have more : j + 1 < nodes.length := by
        have follows := at_.chain.links.next_getElem? at_.here
        rw [Datanodes.link, here, Option.bind_some, next] at follows
        exact (List.getElem?_eq_some_iff.mp follows.symm).1
      obtain ⟨c₁, followed, moved⟩ := at_.follow more
      rw [next, followed] at done
      cases done
      exact ⟨nodes, moved⟩
  | none =>
      simp only [next, Option.bind_eq_bind, Option.bind_eq_some_iff] at done
      obtain ⟨⟨allocated, c₁⟩, new, done⟩ := done
      cases allocated with
      | false => simp at done
      | true =>
          obtain ⟨l, length, extended⟩ := at_.allocateNext small new
          have bound := (List.getElem?_eq_some_iff.mp at_.here).1
          obtain ⟨c₂, followed, moved⟩ := extended.follow (by rw [List.length_append, List.length_take]; omega)
          simp only [if_true, followed, Option.bind_some, Option.pure_def, Option.some.injEq, Prod.mk.injEq, true_and] at done
          subst done
          exact ⟨_, moved⟩

/-! ## The stages of the write -/

-- datanode `j` holds the last of the first `n` bytes
def EndsIn (j n : Nat) : Prop := 512 * j < n ∧ n ≤ 512 * (j + 1)

theorem writeLoop_spec {b : List UInt8} {fuel actual : Nat} (at_ : c.At first nodes j written) (aligned : written.length = 512 * j)
    (nonempty : b ≠ []) (room : b.length ≤ 512 * (nodes.length - j)) (enough : b.length < fuel) :
    ∃ c' j', c.writeLoop fuel b actual = some (.success, actual + b.length, c') ∧
      c'.At first nodes j' (written ++ b) ∧ EndsIn j' (written ++ b).length := by
  induction fuel generalizing c j written b actual with
  | zero => omega
  | succ fuel ih =>
      have size : ramfsDatanodeSize = 512 := rfl
      have positive := List.length_pos_iff.mpr nonempty
      have bound := (List.getElem?_eq_some_iff.mp at_.here).1
      generalize chosen : (if b.length < ramfsDatanodeSize then b.length else ramfsDatanodeSize) = writeSize
      have chunk : writeSize ≤ b.length ∧ writeSize ≤ 512 ∧ 0 < writeSize ∧
          (writeSize = 512 ∨ writeSize = b.length) := by
        split_ifs at chosen <;> omega
      have taken : (b.take writeSize).length = writeSize := by rw [List.length_take]; omega
      obtain ⟨c₁, stored, at₁⟩ := at_.store (o := 0) (b := b.take writeSize) (by omega) (by omega)
      rw [Cursor.writeLoop]
      simp only [chosen, stored, Option.bind_eq_bind, Option.bind_some]
      by_cases last : b.length - writeSize = 0
      · have whole : writeSize = b.length := by omega
        rw [if_pos last, whole]
        rw [whole, List.take_length] at at₁
        refine ⟨c₁, j, rfl, at₁, ?_, ?_⟩ <;> rw [List.length_append] <;> omega
      · have full : writeSize = 512 := by omega
        have more : j + 1 < nodes.length := by omega
        obtain ⟨c₂, followed, at₂⟩ := at₁.follow more
        obtain ⟨next, link⟩ : ∃ next, c₁.datanode.link c₁.start = some next :=
          ⟨nodes[j + 1], by rw [at₁.chain.links.next_getElem? at₁.here, List.getElem?_eq_getElem more]⟩
        rw [if_neg last, link]
        simp only [followed, Option.bind_some]
        obtain ⟨c', j', done, at', ends⟩ := ih (b := b.drop writeSize) at₂
          (by rw [List.length_append]; omega) (by rw [ne_eq, List.drop_eq_nil_iff]; omega)
          (by rw [List.length_drop]; omega) (by rw [List.length_drop]; omega)
        rw [List.append_assoc, List.take_append_drop] at at' ends
        refine ⟨c', j', ?_, at', ends⟩
        rw [done, List.length_drop, Nat.add_assoc, Nat.add_sub_cancel' chunk.1]

variable {n actual : Nat}

-- what a successful write leaves
def Wrote (c' : Cursor) (first : Option Addr) (content : List UInt8) : Prop :=
  ∃ nodes j, c'.At first nodes j content ∧ EndsIn j content.length

theorem writeAligned_spec (at_ : c.At first nodes j written) (aligned : written.length = 512 * j) (nonempty : buffer ≠ [])
    (done : c.writeAligned buffer actual = some (.success, n, c')) :
    n = actual + buffer.length ∧ c'.Wrote first (written ++ buffer) := by
  have size : ramfsDatanodeSize = 512 := rfl
  have bound := (List.getElem?_eq_some_iff.mp at_.here).1
  rw [Cursor.writeAligned, size] at done
  split_ifs at done with many
  · obtain ⟨node, here⟩ := at_.node
    simp only [here, Option.bind_eq_bind, Option.bind_some, Option.bind_eq_some_iff] at done
    obtain ⟨⟨allocated, c₁⟩, new, done⟩ := done
    cases allocated with
    | false => simp at done
    | true =>
        obtain ⟨l, length, at₁⟩ := at_.allocateNext (by omega) new
        obtain ⟨c₂, j', wrote, at₂, ends⟩ := writeLoop_spec at₁ aligned nonempty
          (by rw [List.length_append, List.length_take]; omega) (Nat.lt_succ_self _)
        rw [if_pos rfl, wrote] at done
        cases done
        exact ⟨rfl, _, j', at₂, ends⟩
  · obtain ⟨c₂, j', wrote, at₂, ends⟩ := writeLoop_spec at_ aligned nonempty (by omega)
      (Nat.lt_succ_self _)
    rw [wrote] at done
    cases done
    exact ⟨rfl, nodes, j', at₂, ends⟩

theorem writeWithin_spec (at_ : c.At first nodes j written) (offsetAt : written.length = 512 * j + offset)
    (small : offset < 512) (nonempty : buffer ≠ []) (done : c.writeWithin buffer offset = some (.success, n, c')) :
    n = buffer.length ∧ c'.Wrote first (written ++ buffer) := by
  have size : ramfsDatanodeSize = 512 := rfl
  have positive := List.length_pos_iff.mpr nonempty
  rw [Cursor.writeWithin] at done
  split_ifs at done with inside
  · generalize chosen : (if buffer.length ≤ ramfsDatanodeSize - offset then buffer.length else ramfsDatanodeSize - offset) =
      writeSize
    have chunk : writeSize ≤ buffer.length ∧ offset + writeSize ≤ 512 ∧ 0 < writeSize ∧
        (offset + writeSize = 512 ∨ writeSize = buffer.length) := by
      split_ifs at chosen <;> omega
    have taken : (buffer.take writeSize).length = writeSize := by rw [List.length_take]; omega
    obtain ⟨c₁, stored, at₁⟩ := at_.store (b := buffer.take writeSize) offsetAt (by omega)
    simp only [chosen, stored, Option.bind_eq_bind, Option.bind_some] at done
    by_cases last : buffer.length - writeSize = 0
    · have whole : writeSize = buffer.length := by omega
      rw [if_pos last] at done
      cases done
      rw [whole, List.take_length] at at₁
      refine ⟨whole, nodes, j, at₁, ?_, ?_⟩ <;> rw [List.length_append] <;> omega
    · simp only [if_neg last, Option.bind_eq_some_iff] at done
      obtain ⟨⟨there, c₂⟩, advanced, done⟩ := done
      cases there with
      | false => simp at done
      | true =>
          have length : (written ++ buffer.take writeSize).length = 512 * (j + 1) := by
            rw [List.length_append]
            omega
          obtain ⟨nodes', at₂⟩ := at₁.advance (by omega) Nat.one_pos advanced
          rw [if_pos rfl] at done
          obtain ⟨total, wrote⟩ := writeAligned_spec at₂ length (by rw [ne_eq, List.drop_eq_nil_iff]; omega) done
          rw [List.append_assoc, List.take_append_drop] at wrote
          rw [List.length_drop] at total
          exact ⟨by omega, wrote⟩
  · obtain ⟨total, wrote⟩ := writeAligned_spec at_ (by omega) nonempty done
    exact ⟨by omega, wrote⟩

theorem writeFile_spec (at_ : c.At first nodes j written) (offsetAt : written.length = 512 * j + offset)
    (small : offset ≤ 512) (nonempty : buffer ≠ []) (done : c.writeFile buffer offset = some (.success, n, c')) :
    n = buffer.length ∧ c'.Wrote first (written ++ buffer) := by
  have size : ramfsDatanodeSize = 512 := rfl
  rw [Cursor.writeFile] at done
  split_ifs at done with full
  · have whole : offset = 512 := by omega
    subst whole
    simp only [Option.bind_eq_bind, Option.bind_eq_some_iff] at done
    obtain ⟨⟨there, c₁⟩, advanced, done⟩ := done
    cases there with
    | false => simp at done
    | true =>
        obtain ⟨nodes', at₁⟩ := at_.advance (by omega) Nat.one_pos advanced
        rw [if_pos rfl] at done
        exact writeWithin_spec at₁ (by omega) (Nat.zero_lt_succ 511) nonempty done
  · exact writeWithin_spec at_ offsetAt (by omega) nonempty done

end Cursor
end Kerosene.Ramfs
