import Kerosene.Ramfs.Appenders

/-!
# Overwriting a regular file

`write_file` allocates as many datanodes as the rest of the buffer fills, links them behind
`*start_datanode`, and loses what was linked there before.
-/

namespace Kerosene.Ramfs
open Lib

namespace Cursor
variable {c c' : Cursor} {first : Option Addr} {nodes : List Addr} {j offset actual : Nat} {all bytes buffer : List UInt8}
variable {given : List (Addr × Datanode Block)} {rest : List (Datanodes.Grant Block)}

/-- The cursor is at datanode `j` of the chain, whose bytes are `all`. -/
structure Holds (c : Cursor) (first : Option Addr) (nodes : List Addr) (j : Nat) (all : List UInt8) : Prop extends
    c.At first nodes j all where
  length : all.length = 512 * nodes.length

theorem At.holds {written : List UInt8} (at_ : c.At first nodes j written) (bytes : c.datanode.bytes nodes = all) :
    c.Holds first nodes j all :=
  ⟨⟨at_.chain, at_.here, by rw [bytes], at_.fresh⟩,
    by rw [← bytes, Datanodes.bytes_length at_.chain.allocated, Nat.mul_comm]⟩

theorem Holds.bytes_eq (holds : c.Holds first nodes j all) : c.datanode.bytes nodes = all := by
  refine (holds.stored.eq_of_length ?_).symm
  rw [holds.length, Datanodes.bytes_length holds.chain.allocated, Nat.mul_comm]

theorem Holds.lt (holds : c.Holds first nodes j all) : j < nodes.length :=
  (List.getElem?_eq_some_iff.mp holds.here).1

theorem Holds.store {b : List UInt8} {o : Nat} (holds : c.Holds first nodes j all) (fits : o + b.length ≤ 512) :
    ∃ c', c.store o b = some c' ∧ c'.grants = c.grants ∧
      c'.Holds first nodes j (splice all (512 * j + o) b) := by
  obtain ⟨c', done, grants, at', b⟩ := holds.toAt.store_splice fits
  exact ⟨c', done, grants, at'.holds (by rw [b, holds.bytes_eq])⟩

theorem Holds.follow (holds : c.Holds first nodes j all) (more : j + 1 < nodes.length) :
    ∃ c', c.follow = some c' ∧ c'.grants = c.grants ∧ c'.Holds first nodes (j + 1) all := by
  obtain ⟨c', done, at'⟩ := holds.toAt.follow more
  refine ⟨c', done, ?_, at', holds.length⟩
  simp only [Cursor.follow, Option.bind_eq_bind, Option.bind_eq_some_iff] at done
  obtain ⟨next, -, done⟩ := done
  cases done
  rfl

-- what the blocks held before
def staleBytes (given : List (Addr × Datanode Block)) : List UInt8 := (given.map fun block => block.2.data.toList).flatten

theorem Holds.allocateNext {g : List (Addr × Datanode Block)} (holds : c.Holds first nodes j all)
    (granted : c.grants = g.map some ++ rest)
    (some_ : g ≠ []) :
    ∃ c', c.allocateNext g.length = some (true, c') ∧ c'.grants = rest ∧
      c'.Holds first (nodes.take (j + 1) ++ g.map Prod.fst) j (all.take (512 * (j + 1)) ++ staleBytes g) := by
  have enough : c.grants.take g.length = g.map some := by
    rw [granted, List.take_left' (List.length_map ..)]
  obtain ⟨new, s, done⟩ := Datanodes.ramfsAllocateDatanodes_succeeds (c := none) holds.fresh enough some_
  obtain ⟨given', same, chain, news⟩ := Datanodes.ramfsAllocateDatanodes_spec holds.fresh done
  obtain rfl : given' = g := by
    have := news.granted
    rw [same, enough] at this
    exact (List.map_injective_iff.mpr (Option.some_injective _) this).symm
  have front : (all.take (512 * (j + 1))).length = 512 * (j + 1) := by
    have := holds.lt
    rw [List.length_take, holds.length]
    omega
  have prior : c.At first nodes j (all.take (512 * (j + 1))) :=
    ⟨holds.chain, holds.here, (List.take_prefix _ _).trans holds.stored, holds.fresh⟩
  have at' := prior.relink (by omega) chain news.others news.news news.fresh
  refine ⟨_, by rw [Cursor.allocateNext, done]; rfl, ?_, at'.holds ?_⟩
  · change c.grants.drop given'.length = rest
    rw [granted, List.drop_left' (List.length_map ..)]
  · have length := Datanodes.bytes_length (l := nodes.take (j + 1)) fun a member =>
      at'.chain.allocated a (List.mem_append_left _ member)
    have := holds.lt
    rw [List.length_take, Nat.min_eq_left (by omega)] at length
    have stored := at'.stored
    rw [Datanodes.bytes_append] at stored
    have kept := List.prefix_of_prefix_length_le stored (List.prefix_append _ _) (by rw [length, front, Nat.mul_comm])
    rw [Datanodes.bytes_append, kept.eq_of_length (by rw [length, front, Nat.mul_comm])]
    congr 1
    rw [Datanodes.bytes, staleBytes, List.map_map]
    congr 1
    refine List.map_congr_left fun block member => ?_
    obtain ⟨node, here, data⟩ := Option.map_eq_some_iff.mp (news.stale rfl block member)
    rw [Function.comp_apply, Datanodes.setNext_row, Datanodes.row_eq here, data]

-- `advance` takes at most one of the blocks
theorem Holds.advance (holds : c.Holds first nodes j all) (granted : c.grants = given.map some) (some_ : given ≠ []) :
    ∃ c' nodes' extra given', c.advance 1 = some (true, c') ∧ c'.Holds first nodes' (j + 1) (all ++ extra) ∧
      c'.grants = given'.map some ∧ given' <:+ given ∧ given.length ≤ given'.length + 1 := by
  obtain ⟨node, here⟩ := holds.node
  have next : node.next = nodes[j + 1]? := by
    rw [← holds.chain.links.next_getElem? holds.here, Datanodes.link, here, Option.bind_some]
  by_cases more : j + 1 < nodes.length
  · obtain ⟨c', followed, grants, moved⟩ := holds.follow more
    rw [List.getElem?_eq_getElem more] at next
    refine ⟨c', nodes, [], given, ?_, by rwa [List.append_nil], by rw [grants, granted], List.suffix_rfl, by omega⟩
    simp only [Cursor.advance, here, next, followed, Option.bind_eq_bind, Option.bind_some, Option.pure_def]
  · have last : nodes.length = j + 1 := by
      have := holds.lt
      omega
    obtain ⟨block, given, rfl⟩ := List.exists_cons_of_ne_nil some_
    obtain ⟨c₁, allocated, grants, extended⟩ := holds.allocateNext (g := [block]) granted
      (by simp)
    rw [← last, List.take_length, ← holds.length, List.take_length] at extended
    obtain ⟨c', followed, grants', moved⟩ := extended.follow (by simp [last])
    rw [List.getElem?_eq_none (by omega)] at next
    refine ⟨c', _, _, given, ?_, moved, by rw [grants', grants], List.suffix_cons _ _, by simp⟩
    rw [List.length_singleton] at allocated
    simp only [Cursor.advance, here, next, allocated, followed, if_true, Option.bind_eq_bind, Option.bind_some,
      Option.pure_def]

theorem Holds.writeLoop {k : Nat} {b : List UInt8} {n : Nat} (holds : c.Holds first nodes j all) (nonempty : b ≠ [])
    (room : b.length ≤ 512 * (nodes.length - j)) (enough : b.length < n) :
    ∃ c' j', c.writeLoop n b k = some (.success, k + b.length, c') ∧
      c'.Holds first nodes j' (splice all (512 * j) b) := by
  induction n generalizing c j all b k with
  | zero => omega
  | succ n ih =>
      have size : ramfsDatanodeSize = 512 := rfl
      have positive := List.length_pos_iff.mpr nonempty
      have bound := holds.lt
      generalize chosen : (if b.length < ramfsDatanodeSize then b.length else ramfsDatanodeSize) = writeSize
      have chunk : writeSize ≤ b.length ∧ writeSize ≤ 512 ∧ 0 < writeSize ∧
          (writeSize = 512 ∨ writeSize = b.length) := by
        split_ifs at chosen <;> omega
      have taken : (b.take writeSize).length = writeSize := by rw [List.length_take]; omega
      obtain ⟨c₁, stored, -, holds₁⟩ := holds.store (o := 0) (b := b.take writeSize) (by omega)
      rw [Cursor.writeLoop]
      simp only [chosen, stored, Option.bind_eq_bind, Option.bind_some]
      by_cases last : b.length - writeSize = 0
      · have whole : writeSize = b.length := by omega
        rw [if_pos last, whole]
        rw [whole, List.take_length] at holds₁
        exact ⟨c₁, j, rfl, holds₁⟩
      · have full : writeSize = 512 := by omega
        have more : j + 1 < nodes.length := by omega
        obtain ⟨c₂, followed, -, holds₂⟩ := holds₁.follow more
        obtain ⟨next, link⟩ : ∃ next, c₁.datanode.link c₁.start = some next :=
          ⟨nodes[j + 1], by rw [holds₁.chain.links.next_getElem? holds₁.here, List.getElem?_eq_getElem more]⟩
        rw [if_neg last, link]
        simp only [followed, Option.bind_some]
        obtain ⟨c', j', done, holds'⟩ := ih (b := b.drop writeSize) holds₂
          (by rw [ne_eq, List.drop_eq_nil_iff]; omega) (by rw [List.length_drop]; omega) (by rw [List.length_drop]; omega)
        have place : 512 * (j + 1) = 512 * j + 0 + (b.take writeSize).length := by omega
        rw [place, splice_splice (by rw [holds.length]; omega), List.take_append_drop] at holds'
        refine ⟨c', j', ?_, holds'⟩
        rw [done, List.length_drop, Nat.add_assoc, Nat.add_sub_cancel' chunk.1]

/-! ## The stages of the write -/

/-- What the chain holds when the loop of `write_file` starts, `many` datanodes having been allocated:
all it held, or only the first `cut` bytes of it. -/
inductive Base (given : List (Addr × Datanode Block)) (all : List UInt8) (cut many : Nat) : List UInt8 → Prop
  | kept (extra : List UInt8) (few : many = 0) : Base given all cut many (all ++ extra)
  | lost (extra : List UInt8) (news : List (Addr × Datanode Block)) (positive : 0 < many) (granted : news ⊆ given)
      (length : news.length = many) : Base given all cut many ((all ++ extra).take cut ++ staleBytes news)

variable {given' : List (Addr × Datanode Block)} {cut many i : Nat} {base extra : List UInt8}

theorem Base.append (base_ : Base given' (all ++ extra) cut many base) (granted : given' ⊆ given) :
    Base given all cut many base := by
  cases base_ with
  | kept extra' few =>
      rw [List.append_assoc]
      exact .kept _ few
  | lost extra' news positive news_granted length =>
      rw [List.append_assoc]
      exact .lost _ news positive (List.Subset.trans news_granted granted) length

theorem Base.splice (base_ : Base given (splice all i bytes) cut many base) (inside : i + bytes.length ≤ all.length)
    (before : i + bytes.length ≤ cut) : ∃ base', Base given all cut many base' ∧ base = Lib.splice base' i bytes := by
  cases base_ with
  | kept extra few => exact ⟨_, .kept extra few, by rw [splice_append inside]⟩
  | lost extra news positive granted length =>
      refine ⟨_, .lost extra news positive granted length, ?_⟩
      have long : i + bytes.length ≤ ((all ++ extra).take cut).length := by
        rw [List.length_take, List.length_append]
        omega
      rw [splice_append long, ← take_splice (by rw [List.length_append]; omega) before, splice_append inside]

theorem Base.take_le {n : Nat} (base_ : Base given all cut many base) (inside : n ≤ all.length) (before : n ≤ cut) :
    base.take n = all.take n := by
  cases base_ with
  | kept extra few => rw [List.take_append_of_le_length inside]
  | lost extra news positive granted length =>
      rw [List.take_append_of_le_length (by rw [List.length_take, List.length_append]; omega), List.take_take,
        Nat.min_eq_left before, List.take_append_of_le_length inside]

theorem Base.le_length {n : Nat} (base_ : Base given all cut many base) (inside : n ≤ all.length) (before : n ≤ cut) :
    n ≤ base.length := by
  have lengths := congrArg List.length (base_.take_le inside before)
  rw [List.length_take, List.length_take] at lengths
  omega

theorem Holds.writeAligned {b : List UInt8} (holds : c.Holds first nodes j all) (nonempty : b ≠ [])
    (granted : c.grants = given.map some) (enough : b.length / 512 ≤ given.length) :
    ∃ c' nodes' j' base, c.writeAligned b actual = some (.success, actual + b.length, c') ∧
      Base given all (512 * (j + 1)) (b.length / 512) base ∧
      c'.Holds first nodes' j' (splice base (512 * j) b) := by
  have size : ramfsDatanodeSize = 512 := rfl
  have bound := holds.lt
  rw [Cursor.writeAligned, size]
  by_cases many : b.length / 512 > 0
  · obtain ⟨node, here⟩ := holds.node
    have count : (given.take (b.length / 512)).length = b.length / 512 := by
      rw [List.length_take]
      omega
    obtain ⟨c₁, allocated, -, holds₁⟩ := holds.allocateNext (g := given.take (b.length / 512))
      (by rw [granted, ← List.map_append, List.take_append_drop])
      (by rw [← List.length_pos_iff]; omega)
    rw [count] at allocated
    obtain ⟨c', j', done, holds'⟩ := holds₁.writeLoop (n := b.length + 1) (k := actual) nonempty
      (by rw [List.length_append, List.length_map, count, List.length_take]; omega) (by omega)
    refine ⟨c', _, j', _, ?_, .lost [] _ many (List.take_subset _ _) count, by rwa [List.append_nil]⟩
    simp only [if_pos many, here, allocated, done, if_true, Option.bind_eq_bind, Option.bind_some]
  · obtain ⟨c', j', done, holds'⟩ := holds.writeLoop (n := b.length + 1) nonempty
      (by omega) (by omega)
    refine ⟨c', nodes, j', _, ?_, .kept [] (by omega), by rwa [List.append_nil]⟩
    rw [if_neg many, done]

-- how far the next datanode is
def padding (p : Nat) : Nat := (512 - p % 512) % 512

theorem Holds.writeWithin {o : Nat} {p : Nat} (holds : c.Holds first nodes j all) (position : p = 512 * j + o)
    (small : o < 512) (nonempty : buffer ≠ []) (granted : c.grants = given.map some)
    (enough : buffer.length / 512 + min o 1 ≤ given.length) :
    ∃ c' nodes' j' base, c.writeWithin buffer o = some (.success, buffer.length, c') ∧
      Base given all (p + padding p + 512) ((buffer.length - padding p) / 512) base ∧
      c'.Holds first nodes' j' (splice base p buffer) := by
  have size : ramfsDatanodeSize = 512 := rfl
  have positive := List.length_pos_iff.mpr nonempty
  have bound := holds.lt
  have length := holds.length
  rw [Cursor.writeWithin]
  by_cases inside : o > 0
  · have pad : padding p = 512 - o := by
      rw [padding]
      omega
    generalize chosen : (if buffer.length ≤ ramfsDatanodeSize - o then buffer.length else ramfsDatanodeSize - o) =
      writeSize
    have chunk : writeSize ≤ buffer.length ∧ o + writeSize ≤ 512 ∧ 0 < writeSize ∧
        (o + writeSize = 512 ∨ writeSize = buffer.length) := by
      split_ifs at chosen <;> omega
    have taken : (buffer.take writeSize).length = writeSize := by rw [List.length_take]; omega
    obtain ⟨c₁, stored, grants₁, holds₁⟩ := holds.store (b := buffer.take writeSize) (o := o) (by omega)
    rw [← position] at holds₁
    simp only [if_pos inside, chosen, stored, Option.bind_eq_bind, Option.bind_some]
    by_cases last : buffer.length - writeSize = 0
    · have whole : writeSize = buffer.length := by omega
      rw [if_pos last, whole]
      rw [whole, List.take_length] at holds₁
      exact ⟨c₁, nodes, j, _, rfl, .kept [] (by omega), by rwa [List.append_nil]⟩
    · obtain ⟨c₂, nodes₂, extra, given₂, advanced, holds₂, grants₂, suffix, left⟩ := holds₁.advance
        (by rw [grants₁, granted]) (by rw [← List.length_pos_iff]; omega)
      have rest : (buffer.drop writeSize).length = buffer.length - writeSize := List.length_drop ..
      obtain ⟨c', nodes', j', base₂, done, cut, holds'⟩ := holds₂.writeAligned (b := buffer.drop writeSize)
        (by rw [← List.length_pos_iff]; omega) grants₂ (by omega)
      obtain ⟨base, cut', rfl⟩ := (cut.append suffix.subset).splice (by omega) (by omega)
      have place : 512 * (j + 1) = p + (buffer.take writeSize).length := by omega
      rw [place, splice_splice (cut'.le_length (by omega) (by omega)), List.take_append_drop] at holds'
      refine ⟨c', nodes', j', base, ?_, ?_, holds'⟩
      · rw [rest, Nat.add_sub_cancel' chunk.1] at done
        simp only [if_neg last, advanced, Option.bind_some, if_true, done]
      · have many : buffer.length - padding p = (buffer.drop writeSize).length := by omega
        have edge : p + padding p + 512 = 512 * (j + 1 + 1) := by omega
        rw [many, edge]
        exact cut'
  · have pad : padding p = 0 := by
      rw [padding]
      omega
    obtain ⟨c', nodes', j', base, done, cut, holds'⟩ := holds.writeAligned nonempty granted (by omega)
    have place : p = 512 * j := by omega
    refine ⟨c', nodes', j', base, by rw [if_neg inside, done, Nat.zero_add], ?_, by rwa [place]⟩
    rw [pad, place, Nat.add_zero, Nat.sub_zero]
    exact cut

theorem Holds.writeFile {p : Nat} (holds : c.Holds first nodes j all) (position : p = 512 * j + offset)
    (small : offset ≤ 512) (nonempty : buffer ≠ []) (granted : c.grants = given.map some)
    (enough : buffer.length / 512 + 1 ≤ given.length) :
    ∃ c' nodes' j' base, c.writeFile buffer offset = some (.success, buffer.length, c') ∧
      Base given all (p + padding p + 512) ((buffer.length - padding p) / 512) base ∧
      c'.Holds first nodes' j' (splice base p buffer) := by
  have size : ramfsDatanodeSize = 512 := rfl
  rw [Cursor.writeFile]
  by_cases full : offset ≥ ramfsDatanodeSize
  · have whole : offset = 512 := by omega
    subst whole
    obtain ⟨c₁, nodes₁, extra, given₁, advanced, holds₁, grants₁, suffix, left⟩ := holds.advance granted
      (by rw [← List.length_pos_iff]; omega)
    obtain ⟨c', nodes', j', base, done, cut, holds'⟩ := holds₁.writeWithin (p := p) (o := 0) (by omega) (by omega)
      nonempty grants₁ (by omega)
    refine ⟨c', nodes', j', base, ?_, cut.append suffix.subset, holds'⟩
    rw [if_pos full, size, Option.bind_eq_bind, advanced, Option.bind_some]
    exact done
  · rw [if_neg full]
    exact holds.writeWithin position (by omega) nonempty granted (by omega)

end Cursor

/-! ## `file_write` -/

namespace File
variable {f : File} {d : FileDescription} {content buffer : List UInt8} {given : List (Addr × Datanode Block)}
variable {start : Addr}

/-- The write succeeds and replaces the bytes from the position on. -/
def Overwrites (f : File) (d : FileDescription) (buffer content : List UInt8) (grants : List (Datanodes.Grant Block)) : Prop :=
  ∃ r, f.fileWrite d buffer grants = some r ∧ r.err = .success ∧ r.actual = buffer.length ∧
    r.file.Contains (splice content d.position buffer)

/-- `current_datanode` holds the byte before the position; it is the first datanode at position 0. -/
def AtPosition (f : File) (d : FileDescription) (start : Addr) : Prop :=
  d.currentDatanode = some start ∧ f.datanode.nth ((d.position - 1) / ramfsDatanodeSize) f.datanodeChain = some start

theorem fileWrite_splice (contains : f.Contains content) (at_ : f.AtPosition d start)
    (writes : d.mode.has fileOpenWrite) (noAppend : d.mode.has fileOpenAppend = false)
    (nonempty : buffer ≠ []) (fresh : f.datanode.Fresh (given.map some))
    (enough : buffer.length / ramfsDatanodeSize + 1 ≤ given.length) :
    ∃ r all base nodes, f.fileWrite d buffer (given.map some) = some r ∧ r.err = .success ∧ r.actual = buffer.length ∧
      r.file.size = max f.size (d.position + buffer.length) ∧ content <+: all ∧
      Cursor.Base given all (d.position + Cursor.padding d.position + 512)
        ((buffer.length - Cursor.padding d.position) / 512) base ∧
      r.file.datanode.Chain r.file.datanodeChain nodes ∧ r.file.datanode.bytes nodes = splice base d.position buffer := by
  obtain ⟨nodes, chain, stored⟩ := contains.stored
  obtain ⟨position, small⟩ := dataOffsetOf_spec d.position
  obtain ⟨current, here⟩ := at_
  rw [chain.nth] at here
  have holds : Cursor.Holds ⟨f.datanode, start, given.map some⟩ f.datanodeChain nodes
      ((d.position - 1) / ramfsDatanodeSize) (f.datanode.bytes nodes) :=
    Cursor.At.holds ⟨chain, here, List.nil_prefix, fresh⟩ rfl
  obtain ⟨c, nodes', j, base, done, cut, holds'⟩ := holds.writeFile position small nonempty rfl enough
  refine ⟨⟨.success, buffer.length, ⟨c.datanode, f.datanodeChain, if d.position + buffer.length > f.size then
    d.position + buffer.length else f.size⟩, { d with currentDatanode := some c.start, position := d.position +
    buffer.length }⟩, _, base, nodes', ?_, rfl, rfl, ?_, stored, cut, holds'.chain, holds'.bytes_eq⟩
  · simp only [fileWrite, writes, ramfsFileWrite, noAppend, current, done, if_true, Option.bind_eq_bind, Option.bind_some]
    rfl
  · dsimp only
    split_ifs <;> omega

-- what `rmalloc` answers, when it hands out these blocks
def grantsOf (blocks : List Addr) (stale : Addr → Datanode Block) : List (Datanodes.Grant Block) :=
  blocks.map fun a => some (a, stale a)

theorem grantsOf_fresh {blocks : List Addr} (unused : ∀ a ∈ blocks, f.datanode a = none) (apart : blocks.Nodup)
    (stale : Addr → Datanode Block) : f.datanode.Fresh (grantsOf blocks stale) := by
  have same : Datanodes.blocksOf (grantsOf blocks stale) = blocks := by
    rw [Datanodes.blocksOf, grantsOf, List.filterMap_map]
    exact List.filterMap_some
  exact ⟨by rwa [same], by rwa [same]⟩

/-- Whatever the new datanodes held, the write replaces `[p, p + |b|)` and nothing else, if and only if it
allocates none behind the aligned part, or leaves no old byte behind it. -/
theorem overwrites_iff {blocks : List Addr} (contains : f.Contains content) (at_ : f.AtPosition d start)
    (inside : d.position ≤ f.size) (writes : d.mode.has fileOpenWrite) (noAppend : d.mode.has fileOpenAppend = false)
    (nonempty : buffer ≠ []) (unused : ∀ a ∈ blocks, f.datanode a = none) (apart : blocks.Nodup)
    (enough : buffer.length / ramfsDatanodeSize + 1 ≤ blocks.length) :
    (∀ stale, f.Overwrites d buffer content (grantsOf blocks stale)) ↔
      buffer.length - Cursor.padding d.position < ramfsDatanodeSize ∨ f.size ≤ d.position + buffer.length := by
  have blockSize : ramfsDatanodeSize = 512 := rfl
  have size := contains.size
  have grants : ∀ stale : Addr → Datanode Block,
      grantsOf blocks stale = (blocks.map fun a => (a, stale a)).map some := fun stale => (List.map_map ..).symm
  have wrote := fun stale : Addr → Datanode Block => by
    have fresh := grantsOf_fresh unused apart stale
    rw [grants stale] at fresh
    exact fileWrite_splice contains at_ writes noAppend nonempty fresh (by rwa [List.length_map])
  constructor
  · intro always
    by_contra lost
    rw [not_or, Nat.not_lt, Nat.not_le] at lost
    have after : d.position + buffer.length < content.length := by omega
    generalize old : content[d.position + buffer.length] = byte
    -- new datanodes without this byte
    generalize chosen : (fun _ : Addr => (⟨none, Vector.replicate 512 (byte + 1)⟩ : Datanode Block)) = stale
    obtain ⟨r, all, base, nodes, done, -, -, -, stored, cut, chain, bytes⟩ := wrote stale
    obtain ⟨r', done', -, -, contains'⟩ := always stale
    rw [grants stale, done] at done'
    cases done'
    obtain ⟨nodes', chain', stored'⟩ := contains'.stored
    obtain rfl := chain.links.unique chain'.links
    have long := stored.length_le
    have expected : base[d.position + buffer.length]? = some byte := by
      have there := (List.getElem?_eq_some_iff.mpr ⟨after, old⟩)
      rw [← getElem?_splice (x := buffer) (i := d.position) (by omega) le_rfl] at there
      rw [← getElem?_splice (x := buffer) (i := d.position) (cut.le_length (by omega) (by omega)) le_rfl, ← bytes]
      obtain ⟨bound, same⟩ := List.getElem?_eq_some_iff.mp there
      rw [List.prefix_iff_getElem?.mp stored' _ bound, same]
    cases cut with
    | kept extra few => omega
    | lost extra news positive granted length =>
        rw [List.getElem?_append_right (by rw [List.length_take]; omega)] at expected
        obtain ⟨_, member, inBlock⟩ := List.mem_flatten.mp (List.mem_of_getElem? expected)
        obtain ⟨block, isNew, rfl⟩ := List.mem_map.mp member
        obtain ⟨a, -, rfl⟩ := List.mem_map.mp (granted isNew)
        rw [← chosen, Vector.toList_replicate] at inBlock
        exact absurd (List.eq_of_mem_replicate inBlock) (by grind)
  · intro condition stale
    obtain ⟨r, all, base, nodes, done, success, actual, newSize, stored, cut, chain, bytes⟩ := wrote stale
    rw [← grants stale] at done
    refine ⟨r, done, success, actual, ?_, nodes, chain, ?_⟩
    · rw [newSize, size, length_splice (by omega)]
    · have long := stored.length_le
      have isPrefix : content = all.take f.size := by rw [size]; exact List.prefix_iff_eq_take.mp stored
      suffices whole : (splice base d.position buffer).take (max f.size (d.position + buffer.length)) =
          splice content d.position buffer by
        rw [bytes, ← whole]
        exact List.take_prefix _ _
      have short : base.take d.position = content.take d.position := by
        rw [cut.take_le (by omega) (by omega), isPrefix, List.take_take, Nat.min_eq_left inside]
      have start := cut.le_length (n := d.position) (by omega) (by omega)
      cases cut with
      | kept extra few => rw [take_splice_max inside (by omega), ← isPrefix]
      | lost extra news positive granted length =>
          have ends : f.size ≤ d.position + buffer.length := by omega
          rw [max_eq_right ends, take_splice_eq start, short, splice, List.drop_eq_nil_of_le (by omega), List.append_nil]

/-! ## A file of three datanodes -/

section ThreeDatanodes

def zeroed : Block := Vector.replicate 512 0

def threeDatanodes : File where
  datanode := ((Datanodes.put (fun _ => none) 3 ⟨none, zeroed⟩).put 2 ⟨some 3, zeroed⟩).put 1 ⟨some 2, zeroed⟩
  datanodeChain := some 1
  size := 1100

theorem threeDatanodes_contains : threeDatanodes.Contains (List.replicate 1100 0) := by
  refine ⟨(List.length_replicate ..).symm, [1, 2, 3], ?_, ?_⟩
  · refine Datanodes.chain_cons.mpr ⟨⟨some 2, zeroed⟩, rfl, rfl, Datanodes.chain_cons.mpr ⟨⟨some 3, zeroed⟩, rfl, rfl,
      Datanodes.chain_cons.mpr ⟨⟨none, zeroed⟩, rfl, rfl, rfl, by simp⟩⟩⟩
  · have rows : threeDatanodes.datanode.bytes [1, 2, 3] = List.replicate (1100 + 436) 0 := by
      simp only [Datanodes.bytes_cons, Datanodes.bytes_nil]
      change zeroed.toList ++ (zeroed.toList ++ (zeroed.toList ++ [])) = _
      simp only [zeroed, Vector.toList_replicate, List.append_nil, List.replicate_append_replicate]
    rw [rows, List.replicate_add]
    exact List.prefix_append _ _

-- a descriptor at the start of the file
def overwriter : FileDescription := ⟨fileOpenWrite, 0, some 1, none⟩

theorem threeDatanodes_unused : ∀ a ∈ ([4, 5] : List Addr), threeDatanodes.datanode a = none := by
  intro a member
  rcases List.mem_cons.mp member with rfl | member
  · rfl
  · rw [List.mem_singleton.mp member]
    rfl

theorem overwrites_iff_short_buffer :
    threeDatanodes.Overwrites overwriter [7, 8] (List.replicate 1100 0) (grantsOf [4, 5] fun _ => ⟨none, zeroed⟩) :=
  (overwrites_iff threeDatanodes_contains ⟨rfl, rfl⟩ (Nat.zero_le _) rfl rfl (by simp) threeDatanodes_unused (by decide)
    (by decide)).mpr (Or.inl (by decide)) _

/-- Two datanodes are left of a file of 1100 bytes. -/
theorem overwrite_drops_tail :
    ¬ ∀ (f : File) (d : FileDescription) (start : Addr) (content buffer : List UInt8) (blocks : List Addr)
        (stale : Addr → Datanode Block), f.Contains content → f.AtPosition d start → d.position ≤ f.size →
        d.mode.has fileOpenWrite → d.mode.has fileOpenAppend = false → buffer ≠ [] →
        (∀ a ∈ blocks, f.datanode a = none) → blocks.Nodup → buffer.length / ramfsDatanodeSize + 1 ≤ blocks.length →
        f.Overwrites d buffer content (grantsOf blocks stale) := by
  intro always
  obtain ⟨r, done, -, -, contains⟩ := always threeDatanodes overwriter 1 (List.replicate 1100 0) (List.replicate 512 1) [4, 5]
    (fun _ => ⟨none, zeroed⟩) threeDatanodes_contains ⟨rfl, rfl⟩ (Nat.zero_le _) rfl rfl
    (by rw [← List.length_pos_iff, List.length_replicate]; decide) threeDatanodes_unused (by decide) (by decide +kernel)
  have left : (threeDatanodes.fileWrite overwriter (List.replicate 512 1) (grantsOf [4, 5] fun _ => ⟨none, zeroed⟩)).any
      (fun r => r.file.datanodeChain == some 1 && r.file.datanode.link 1 == some 4 && r.file.datanode.link 4 == none) =
      true := by decide +kernel
  rw [done, Option.any_some] at left
  simp only [Bool.and_eq_true, beq_iff_eq] at left
  obtain ⟨⟨first, second⟩, last⟩ := left
  obtain ⟨nodes, chain, stored⟩ := contains.stored
  have short : Seg r.file.datanode.link r.file.datanodeChain [1, 4] none := ⟨first, second, last⟩
  obtain rfl := chain.links.unique short
  have bound := stored.length_le
  rw [Datanodes.bytes_length chain.allocated, length_splice (i := overwriter.position) (Nat.zero_le _),
    List.length_replicate, List.length_replicate] at bound
  exact absurd bound (by decide)

end ThreeDatanodes
end File
end Kerosene.Ramfs
