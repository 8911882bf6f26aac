import Kerosene.Ramfs.WriteShapes

/-!
# Where a write leaves its pointer

In a datanode that is allocated, whatever was asked for and whether the write succeeds or not.
-/

namespace Kerosene.Ramfs

namespace Datanodes
variable {δ : Type*} {s s' : Datanodes δ} {grants : List (Grant δ)}

theorem setNext_isSome (s : Datanodes δ) (a b : Addr) (next : Option Addr) :
    (s.setNext a next b).isSome = (s b).isSome := by
  by_cases same : b = a
  · subst same
    simp [setNext]
  · rw [setNext_of_ne same]

theorem Fresh.of_isSome (fresh : s.Fresh grants) (same : ∀ a, (s' a).isSome = (s a).isSome) : s'.Fresh grants :=
  ⟨fun a member => by rw [← Option.isNone_iff_eq_none, ← Option.not_isSome, same, fresh.unused a member]; rfl, fresh.apart⟩

end Datanodes

namespace Cursor
variable {c c' c'' : Cursor} {offset count n actual fuel : Nat} {bytes buffer : List UInt8} {err : FsErr} {there : Bool}

/-- No datanode is freed, and what is still granted is not in use. -/
structure Keeps (c c' : Cursor) : Prop where
  kept : ∀ a, (c.datanode a).isSome → (c'.datanode a).isSome
  fresh : c'.datanode.Fresh c'.grants

-- the pointer is at a datanode
def Points (c : Cursor) : Prop := (c.datanode c.start).isSome

theorem Keeps.trans (first : c.Keeps c') (next : c'.Keeps c'') : c.Keeps c'' :=
  ⟨fun a used => next.kept a (first.kept a used), next.fresh⟩

theorem store_keeps (fresh : c.datanode.Fresh c.grants) (done : c.store offset bytes = some c') :
    c.Keeps c' ∧ c'.Points := by
  obtain ⟨node, here, done⟩ := Option.bind_eq_some_iff.mp done
  cases done
  have same : ∀ a, (c.datanode.setData c.start (copyInto node.data offset bytes) a).isSome = (c.datanode a).isSome :=
    fun a => Datanodes.setData_isSome ..
  refine ⟨⟨fun a used => (same a).trans used, fresh.of_isSome same⟩, (same c.start).trans ?_⟩
  rw [here]
  rfl

theorem follow_keeps (fresh : c.datanode.Fresh c.grants) (done : c.follow = some c') : c.Keeps c' := by
  obtain ⟨next, -, done⟩ := Option.bind_eq_some_iff.mp done
  cases done
  exact ⟨fun _ used => used, fresh⟩

theorem allocateNext_keeps (fresh : c.datanode.Fresh c.grants) (done : c.allocateNext count = some (there, c')) :
    c.Keeps c' ∧ c'.start = c.start := by
  obtain ⟨⟨new, s⟩, allocated, done⟩ := Option.bind_eq_some_iff.mp done
  cases done
  have same : ∀ a, (s.setNext c.start new a).isSome = (s a).isSome := fun a => Datanodes.setNext_isSome ..
  refine ⟨?_, rfl⟩
  cases new with
  | none =>
      obtain rfl := Datanodes.ramfsAllocateDatanodes_fails fresh allocated
      exact ⟨fun a used => (same a).trans used, (fresh.of_isSome same).drop count⟩
  | some new =>
      obtain ⟨given, rfl, -, news⟩ := Datanodes.ramfsAllocateDatanodes_spec fresh allocated
      refine ⟨fun a used => (same a).trans ?_, news.fresh.of_isSome same⟩
      rwa [news.others a fun isNew => by rw [news.news a isNew] at used; cases used]

theorem advance_keeps (fresh : c.datanode.Fresh c.grants) (done : c.advance count = some (there, c')) :
    c.Keeps c' ∧ (there = false → c'.Points) := by
  obtain ⟨node, here, done⟩ := Option.bind_eq_some_iff.mp done
  cases next : node.next with
  | some a =>
      rw [next] at done
      obtain ⟨c₁, followed, done⟩ := Option.bind_eq_some_iff.mp done
      cases done
      exact ⟨follow_keeps fresh followed, fun impossible => absurd impossible (by decide)⟩
  | none =>
      rw [next] at done
      obtain ⟨⟨allocated, c₁⟩, new, done⟩ := Option.bind_eq_some_iff.mp done
      obtain ⟨kept, start⟩ := allocateNext_keeps fresh new
      dsimp only at done
      cases allocated with
      | false =>
          rw [if_neg Bool.false_ne_true] at done
          cases done
          refine ⟨kept, fun _ => ?_⟩
          rw [Points, start]
          exact kept.kept c.start (by rw [here]; rfl)
      | true =>
          rw [if_pos rfl] at done
          obtain ⟨c₂, followed, done⟩ := Option.bind_eq_some_iff.mp done
          cases done
          exact ⟨kept.trans (follow_keeps kept.fresh followed), fun impossible => absurd impossible (by decide)⟩

-- every stage ends with a store, or in the datanode where an allocation failed
theorem writeLoop_keeps (fresh : c.datanode.Fresh c.grants) (done : c.writeLoop fuel buffer actual = some (err, n, c')) :
    c.Keeps c' ∧ c'.Points := by
  induction fuel generalizing c buffer actual with
  | zero => cases done
  | succ fuel ih =>
      obtain ⟨c₁, stored, done⟩ := Option.bind_eq_some_iff.mp done
      obtain ⟨kept, points⟩ := store_keeps fresh stored
      dsimp only at done
      generalize (if buffer.length < ramfsDatanodeSize then buffer.length else ramfsDatanodeSize) = writeSize at done
      split_ifs at done with last
      · cases done
        exact ⟨kept, points⟩
      · split at done
        · cases done
          exact ⟨kept, points⟩
        · obtain ⟨c₂, followed, done⟩ := Option.bind_eq_some_iff.mp done
          have moved := follow_keeps kept.fresh followed
          obtain ⟨rest, points⟩ := ih moved.fresh done
          exact ⟨(kept.trans moved).trans rest, points⟩

theorem writeAligned_keeps (fresh : c.datanode.Fresh c.grants) (done : c.writeAligned buffer actual = some (err, n, c')) :
    c.Keeps c' ∧ c'.Points := by
  rw [writeAligned] at done
  dsimp only at done
  split_ifs at done with many
  · obtain ⟨node, here, done⟩ := Option.bind_eq_some_iff.mp done
    obtain ⟨⟨allocated, c₁⟩, new, done⟩ := Option.bind_eq_some_iff.mp done
    obtain ⟨kept, start⟩ := allocateNext_keeps fresh new
    dsimp only at done
    split_ifs at done
    · obtain ⟨rest, points⟩ := writeLoop_keeps kept.fresh done
      exact ⟨kept.trans rest, points⟩
    · cases done
      refine ⟨kept, ?_⟩
      rw [Points, start]
      exact kept.kept c.start (by rw [here]; rfl)
  · exact writeLoop_keeps fresh done

theorem writeWithin_keeps (fresh : c.datanode.Fresh c.grants) (done : c.writeWithin buffer offset = some (err, n, c')) :
    c.Keeps c' ∧ c'.Points := by
  rw [writeWithin] at done
  by_cases inside : offset > 0
  · rw [if_pos inside] at done
    obtain ⟨c₁, stored, done⟩ := Option.bind_eq_some_iff.mp done
    obtain ⟨kept, points⟩ := store_keeps fresh stored
    dsimp only at done
    generalize (if buffer.length ≤ ramfsDatanodeSize - offset then buffer.length else ramfsDatanodeSize - offset) =
      writeSize at done
    split_ifs at done with last
    · cases done
      exact ⟨kept, points⟩
    · obtain ⟨⟨there, c₂⟩, advanced, done⟩ := Option.bind_eq_some_iff.mp done
      obtain ⟨moved, stays⟩ := advance_keeps kept.fresh advanced
      dsimp only at done
      split_ifs at done with found
      · obtain ⟨rest, points⟩ := writeAligned_keeps moved.fresh done
        exact ⟨(kept.trans moved).trans rest, points⟩
      · cases done
        exact ⟨kept.trans moved, stays (Bool.eq_false_iff.mpr found)⟩
  · rw [if_neg inside] at done
    exact writeAligned_keeps fresh done

theorem writeFile_keeps (fresh : c.datanode.Fresh c.grants) (done : c.writeFile buffer offset = some (err, n, c')) :
    c.Keeps c' ∧ c'.Points := by
  rw [writeFile] at done
  by_cases full : offset ≥ ramfsDatanodeSize
  · rw [if_pos full] at done
    obtain ⟨⟨there, c₁⟩, advanced, done⟩ := Option.bind_eq_some_iff.mp done
    obtain ⟨moved, stays⟩ := advance_keeps fresh advanced
    dsimp only at done
    split_ifs at done with found
    · obtain ⟨rest, points⟩ := writeWithin_keeps moved.fresh done
      exact ⟨moved.trans rest, points⟩
    · cases done
      exact ⟨moved, stays (Bool.eq_false_iff.mpr found)⟩
  · rw [if_neg full] at done
    exact writeWithin_keeps fresh done

end Cursor

end Kerosene.Ramfs
