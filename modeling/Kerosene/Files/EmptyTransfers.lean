import Kerosene.Files.BoundedRead
import Kerosene.Lib.Silent
import Kerosene.Ramfs.WritePointers

/-!
# Transfers of length 0

`read_file` and `write_file` move the descriptor to the next datanode or cluster before they look at the length, and
the position moves by the length. At a boundary a transfer of length 0 parts the two.
-/

namespace Kerosene.Files
open Lib Ramfs Fat32

/-- `ω` is what a write takes from an allocator. -/
inductive Transfer (ω : Type) where
  | read (size : Nat)
  | write (buffer : List UInt8) (given : ω)

inductive Transferred (ρ : Type) where
  | read (err : ReadErr) (stored : List UInt8)
  | wrote (result : ρ)
  deriving DecidableEq

theorem FileSystem.fileRead_unread {γ : Type} (fs : FileSystem γ) {file : Description γ} (size : Nat)
    (unread : file.mode.has fileOpenRead = false) : fs.fileRead file size = some (.failed, [], file) :=
  if_pos (by rw [unread]; decide)

theorem FileSystem.fileRead_quiet {γ : Type} {fs : FileSystem γ} {file : Description γ}
    (quiet : file.mode.has fileOpenRead → file.position = fs.size ∨
      file.position ≤ fs.size ∧ fs.fsFileRead file.position file.current 0 = some ⟨.success, [], file.current⟩) :
    ∃ err, fs.fileRead file 0 = some (err, [], file) := by
  rw [FileSystem.fileRead]
  by_cases readable : file.mode.has fileOpenRead
  · rw [if_neg (not_not_intro readable)]
    by_cases ended : file.position = fs.size
    · rw [if_pos ended]
      exact ⟨.eof, rfl⟩
    · obtain ⟨inside, read⟩ := (quiet readable).resolve_left ended
      have none_ : FileSystem.clamp 0 fs.size file.position = 0 := if_neg (by omega)
      rw [if_neg ended, none_, read]
      exact ⟨.success, rfl⟩
  · rw [if_pos readable]
    exact ⟨.failed, rfl⟩

theorem FileSystem.fileRead_current {γ : Type} {fs : FileSystem γ} {file : Description γ} {size : Nat}
    {r : ReadErr × List UInt8 × Description γ} (done : fs.fileRead file size = some r) :
    r.2.2.current = file.current ∨ file.mode.has fileOpenRead ∧ ∃ n answer,
      fs.fsFileRead file.position file.current n = some answer ∧ r.2.2.current = answer.current := by
  simp only [fileRead, Option.bind_eq_bind, Option.pure_def] at done
  split_ifs at done with readable ended
  · cases done
    exact .inl rfl
  · obtain ⟨answer, answered, done⟩ := Option.bind_eq_some_iff.mp done
    refine .inr ⟨readable, _, answer, answered, ?_⟩
    split_ifs at done
    all_goals
      cases done
      rfl
  · cases done
    exact .inl rfl

namespace Handle
variable {σ γ ω ρ : Type} {h : Handle σ γ ω} {write : σ → List UInt8 → ω → Option (ρ × σ)} {s s' s'' : σ}

def transfer (h : Handle σ γ ω) (write : σ → List UInt8 → ω → Option (ρ × σ)) (s : σ) :
    Transfer ω → Option (Transferred ρ × σ)
  | .read size => ((h.fileSystem s).fileRead (h.file s) size).map fun r => (.read r.1 r.2.1, h.setFile s r.2.2)
  | .write buffer given => (write s buffer given).map fun r => (.wrote r.1, r.2)

/-- The same but for a position that nothing looks at: writes go to the end, and there are no reads. -/
def Alike (h : Handle σ γ ω) (s s' : σ) : Prop :=
  s' = s ∨ (h.file s).mode.has fileOpenAppend ∧ (h.file s).mode.has fileOpenRead = false ∧
    ∃ p, s' = h.setFile s { h.file s with position := p }

/-- A descriptor is the only part that changes with it, and a write to the end does not look at the position. -/
structure AppendLaws (h : Handle σ γ ω) (write : σ → List UInt8 → ω → Option (ρ × σ)) : Prop where
  file : ∀ s file, h.file (h.setFile s file) = file
  setFile : ∀ s file file', h.setFile (h.setFile s file) file' = h.setFile s file'
  same : ∀ s, h.setFile s (h.file s) = s
  write : ∀ s p buffer given, (h.file s).mode.has fileOpenAppend →
    Option.Rel (fun x y => x.1 = y.1 ∧ (h.file x.2).mode = (h.file s).mode ∧
      (y.2 = x.2 ∨ ∃ q, y.2 = h.setFile x.2 { h.file x.2 with position := q }))
      (write s buffer given) (write (h.setFile s { h.file s with position := p }) buffer given)

namespace AppendLaws
variable (laws : h.AppendLaws write)
include laws

theorem symm (alike : h.Alike s s') : h.Alike s' s := by
  rcases alike with rfl | ⟨appends, unread, p, rfl⟩
  · exact .inl rfl
  · refine .inr ⟨by rwa [laws.file], by rwa [laws.file], (h.file s).position, ?_⟩
    rw [laws.file, laws.setFile]
    exact (laws.same s).symm

theorem trans (first : h.Alike s s') (next : h.Alike s' s'') : h.Alike s s'' := by
  rcases first with rfl | ⟨appends, unread, p, rfl⟩
  · exact next
  · rcases next with rfl | ⟨-, -, q, rfl⟩
    · exact .inr ⟨appends, unread, p, rfl⟩
    · refine .inr ⟨appends, unread, q, ?_⟩
      rw [laws.file, laws.setFile]

theorem read_unread {size : Nat} (unread : (h.file s).mode.has fileOpenRead = false) :
    h.transfer write s (.read size) = some (.read .failed [], s) := by
  rw [transfer, FileSystem.fileRead_unread _ _ unread]
  change some (_, h.setFile s (h.file s)) = _
  rw [laws.same]

theorem alike (call : Transfer ω) (same : h.Alike s s') :
    Option.Rel (fun x y => x.1 = y.1 ∧ h.Alike x.2 y.2) (h.transfer write s call) (h.transfer write s' call) := by
  rcases same with rfl | ⟨appends, unread, p, rfl⟩
  · cases h.transfer write s' call with
    | none => exact .none
    | some r => exact .some ⟨rfl, .inl rfl⟩
  · cases call with
    | read size =>
        rw [laws.read_unread unread, laws.read_unread (by rwa [laws.file])]
        exact .some ⟨rfl, .inr ⟨appends, unread, p, rfl⟩⟩
    | write buffer given =>
        have both := laws.write s p buffer given appends
        rw [transfer, transfer]
        generalize write s buffer given = done at both
        generalize write (h.setFile s { h.file s with position := p }) buffer given = done' at both
        cases both with
        | none => exact .none
        | some both =>
            obtain ⟨result, mode, ends⟩ := both
            refine .some ⟨congrArg Transferred.wrote result, ?_⟩
            rcases ends with same | ⟨q, moved⟩
            · exact .inl same
            · exact .inr ⟨by rwa [mode], by rwa [mode], q, moved⟩

end AppendLaws
end Handle
end Kerosene.Files

/-! ## ramfs -/

namespace Kerosene.Ramfs
open Lib Files

theorem copyInto_nil (block : Block) (offset : Nat) : copyInto block offset [] = block := by
  ext i small
  rw [getElem_copyInto small, List.getElem?_nil, Option.getD_none, ite_self]

theorem Datanodes.setData_same {s : Datanodes Block} {a : Addr} {node : Datanode Block} (here : s a = some node) :
    s.setData a node.data = s := by
  rw [Datanodes.setData, here, Option.map_some, ← here, Function.update_eq_self]

namespace Cursor
variable {c : Cursor} {offset : Nat}

theorem store_nil (points : c.Points) (offset : Nat) : c.store offset [] = some c := by
  obtain ⟨node, here⟩ := Option.isSome_iff_exists.mp points
  rw [store, here, Option.bind_eq_bind, Option.bind_some, copyInto_nil, Datanodes.setData_same here]
  rfl

theorem writeFile_nil (points : c.Points) (inside : offset < ramfsDatanodeSize) :
    c.writeFile [] offset = some (.success, 0, c) := by
  have size : ramfsDatanodeSize = 512 := rfl
  rw [writeFile, if_neg (by omega), writeWithin]
  by_cases within : offset > 0
  · rw [if_pos within]
    dsimp only
    rw [List.take_nil, store_nil points]
    rfl
  · have short : ¬ ([] : List UInt8).length / ramfsDatanodeSize > 0 := by decide
    rw [if_neg within, writeAligned, if_neg short]
    change (c.store 0 ([].take 0)).bind _ = _
    rw [List.take_nil, store_nil points]
    rfl

end Cursor

section Reads
variable {s : Datanodes Block} {fuel size offset : Nat} {start : Addr} {stored : List UInt8} {r : Answer Addr}

theorem readFile_zero (here : (s start).isSome) (inside : offset < ramfsDatanodeSize) :
    readFile s start 0 offset = some ⟨.success, [], start⟩ := by
  obtain ⟨node, here⟩ := Option.isSome_iff_exists.mp here
  rw [readFile, Nat.div_eq_of_lt inside, skipLoop, Option.bind_eq_bind, Option.bind_some]
  dsimp only
  rw [if_neg (not_not_intro rfl), here]
  by_cases within : offset > 0
  · rw [if_pos within, Option.bind_eq_bind, Option.bind_some, if_pos (Nat.zero_le _), List.take_zero]
    rfl
  · rw [if_neg within, readLoop, here]
    rfl

-- the datanode that a read was last in
theorem readLoop_current (done : readLoop s fuel start size stored = some r) : (s r.current).isSome := by
  induction fuel generalizing start size stored with
  | zero => cases done
  | succ fuel ih =>
      obtain ⟨node, here, done⟩ := Option.bind_eq_some_iff.mp done
      dsimp only at done
      generalize (if size < ramfsDatanodeSize then size else ramfsDatanodeSize) = readSize at done
      split_ifs at done with last
      · cases done
        rw [here]
        rfl
      · cases next : node.next with
        | none =>
            rw [next] at done
            cases done
            rw [here]
            rfl
        | some a =>
            rw [next] at done
            exact ih done

theorem skipLoop_current {err : ReadErr} {start' : Addr} {offset' : Nat}
    (done : skipLoop s fuel start offset = some (err, start', offset')) (failed : err ≠ .success) : (s start').isSome := by
  induction fuel generalizing start offset with
  | zero =>
      cases done
      exact absurd rfl failed
  | succ fuel ih =>
      rw [skipLoop] at done
      split_ifs at done
      · obtain ⟨node, here, done⟩ := Option.bind_eq_some_iff.mp done
        cases next : node.next with
        | none =>
            rw [next] at done
            cases done
            rw [here]
            rfl
        | some a =>
            rw [next] at done
            exact ih done
      · cases done
        exact absurd rfl failed

theorem readFile_current (done : readFile s start size offset = some r) : (s r.current).isSome := by
  obtain ⟨⟨err, start', offset'⟩, skipped, done⟩ := Option.bind_eq_some_iff.mp done
  dsimp only at done
  split_ifs at done with success within inside
  · cases done
    exact skipLoop_current skipped success
  · obtain ⟨node, here, done⟩ := Option.bind_eq_some_iff.mp done
    cases done
    rw [here]
    rfl
  · obtain ⟨node, here, done⟩ := Option.bind_eq_some_iff.mp done
    cases next : node.next with
    | none =>
        rw [next] at done
        cases done
        rw [here]
        rfl
    | some a =>
        rw [next] at done
        exact readLoop_current done
  · exact readLoop_current done

end Reads

namespace File

def transferWrite (s : File × FileDescription) (buffer : List UInt8) (grants : List (Datanodes.Grant Block)) :
    Option ((FsErr × Nat) × (File × FileDescription)) :=
  (s.1.fileWrite s.2 buffer grants).map fun r => ((r.err, r.actual), (r.file, r.description))

/-- `rmalloc` grants what is not in use. -/
def Legal (s : File × FileDescription) : Transfer (List (Datanodes.Grant Block)) → Prop
  | .read _ => True
  | .write _ grants => s.1.datanode.Fresh grants

/-- Of length 0 and not at a boundary, save for a read at the end; and a write to the end leaves the position of a
descriptor for reading where it is. -/
def Quiet (s : File × FileDescription) : Transfer (List (Datanodes.Grant Block)) → Prop
  | .read size => size = 0 ∧
      (s.2.mode.has fileOpenRead → s.2.position = s.1.size ∨ dataOffsetOf s.2.position < ramfsDatanodeSize)
  | .write buffer _ => buffer = [] ∧ (s.2.mode.has fileOpenWrite →
      if s.2.mode.has fileOpenAppend then
        dataOffsetOf s.1.size < ramfsDatanodeSize ∧ (s.2.mode.has fileOpenRead → s.2.position = s.1.size)
      else dataOffsetOf s.2.position < ramfsDatanodeSize)

/-- The pointers that the mode uses are at datanodes, and the position is not behind the end. -/
structure Standing (s : File × FileDescription) : Prop where
  current : s.2.mode.has fileOpenRead ∨ s.2.mode.has fileOpenWrite →
    ∃ a, s.2.currentDatanode = some a ∧ (s.1.datanode a).isSome
  last : s.2.mode.has fileOpenAppend → ∃ a, s.2.lastDatanode = some a ∧ (s.1.datanode a).isSome
  inside : s.2.position ≤ s.1.size

variable {s t : File × FileDescription} {call : Transfer (List (Datanodes.Grant Block))} {r : Transferred (FsErr × Nat)}

theorem ramfsFileWrite_points {f : File} {d : FileDescription} {buffer : List UInt8}
    {grants : List (Datanodes.Grant Block)} {r : WriteResult} (fresh : f.datanode.Fresh grants)
    (done : f.ramfsFileWrite d buffer grants = some r) :
    (∀ a, (f.datanode a).isSome → (r.file.datanode a).isSome) ∧ r.file.size = f.size ∧ ∃ a, (r.file.datanode a).isSome ∧
      r.description = if d.mode.has fileOpenAppend then { d with lastDatanode := some a }
        else { d with currentDatanode := some a } := by
  rw [ramfsFileWrite] at done
  split_ifs at done ⊢
  all_goals
    obtain ⟨start, -, done⟩ := Option.bind_eq_some_iff.mp done
    obtain ⟨⟨err, n, c⟩, wrote, done⟩ := Option.bind_eq_some_iff.mp done
    cases done
    obtain ⟨keeps, points⟩ := Cursor.writeFile_keeps (c := ⟨f.datanode, start, grants⟩) fresh wrote
    exact ⟨keeps.kept, rfl, c.start, points, rfl⟩

theorem Standing.write {buffer : List UInt8} {grants : List (Datanodes.Grant Block)} {r : WriteResult}
    (standing : Standing s) (fresh : s.1.datanode.Fresh grants) (done : s.1.fileWrite s.2 buffer grants = some r) :
    Standing (r.file, r.description) := by
  obtain ⟨mode, inside⟩ := fileWrite_position done
  by_cases writes : s.2.mode.has fileOpenWrite
  · rw [fileWrite, if_pos writes] at done
    obtain ⟨r', wrote, done⟩ := Option.bind_eq_some_iff.mp done
    obtain ⟨kept, -, a, there, moved⟩ := ramfsFileWrite_points fresh wrote
    have same : r.file.datanode = r'.file.datanode ∧ r.description.currentDatanode = r'.description.currentDatanode ∧
        r.description.lastDatanode = r'.description.lastDatanode := by
      split_ifs at done
      all_goals
        cases done
        exact ⟨rfl, rfl, rfl⟩
    refine ⟨fun used => ?_, fun appends => ?_, inside standing.inside⟩
    · dsimp only at used ⊢
      rw [mode] at used
      rw [same.1, same.2.1, moved]
      split_ifs
      · obtain ⟨b, here, allocated⟩ := standing.current used
        exact ⟨b, here, kept b allocated⟩
      · exact ⟨a, rfl, there⟩
    · dsimp only at appends ⊢
      rw [mode] at appends
      rw [same.1, same.2.2, moved, if_pos appends]
      exact ⟨a, rfl, there⟩
  · rw [fileWrite, if_neg writes] at done
    cases done
    exact standing

theorem Standing.read {size : Nat} {r : ReadErr × List UInt8 × Description (Option Addr)} (standing : Standing s)
    (done : s.1.fileSystem.fileRead (handle.file s) size = some r) : Standing (handle.setFile s r.2.2) := by
  cases readable : s.2.mode.has fileOpenRead with
  | false =>
      rw [FileSystem.fileRead_unread _ _ readable] at done
      cases done
      exact standing
  | true =>
      obtain ⟨-, -, mode, inside⟩ := Handle.fileRead_bounded (handle_laws.read s) (fun _ => standing.inside) done
      have sameMode : r.2.2.mode = s.2.mode := mode
      refine ⟨fun used => ?_, fun appends => standing.last ?_, inside readable⟩
      · rcases FileSystem.fileRead_current done with same | ⟨-, n, answer, answered, moved⟩
        · obtain ⟨a, here, allocated⟩ := standing.current (.inl readable)
          exact ⟨a, same.trans here, allocated⟩
        · obtain ⟨start, -, answered⟩ := Option.bind_eq_some_iff.mp answered
          obtain ⟨answer', read, same⟩ := Option.bind_eq_some_iff.mp answered
          cases same
          exact ⟨answer'.current, moved, readFile_current read⟩
      · rw [← sameMode]
        exact appends

theorem Standing.step (standing : Standing s) (legal : Legal s call)
    (done : handle.transfer transferWrite s call = some (r, t)) : Standing t := by
  cases call with
  | read size =>
      obtain ⟨r', read, done⟩ := Option.map_eq_some_iff.mp done
      cases done
      exact standing.read read
  | write buffer grants =>
      obtain ⟨r', wrote, done⟩ := Option.map_eq_some_iff.mp done
      obtain ⟨w, written, rfl⟩ := Option.map_eq_some_iff.mp wrote
      cases done
      exact standing.write legal written

/-- An empty write inside a datanode: at the end of a file to append to, the position goes to the end. -/
theorem fileWrite_nil {grants : List (Datanodes.Grant Block)} (standing : Standing s) (writes : s.2.mode.has fileOpenWrite)
    (within : dataOffsetOf (if s.2.mode.has fileOpenAppend then s.1.size else s.2.position) < ramfsDatanodeSize) :
    s.1.fileWrite s.2 [] grants = some ⟨.success, 0, s.1,
      { s.2 with position := if s.2.mode.has fileOpenAppend then s.1.size else s.2.position }⟩ := by
  have inside := standing.inside
  cases appends : s.2.mode.has fileOpenAppend with
  | true =>
      obtain ⟨a, here, allocated⟩ := standing.last appends
      rw [appends, if_pos rfl] at within
      have wrote : s.1.ramfsFileWrite s.2 [] grants = some ⟨.success, 0, s.1, s.2⟩ := by
        rw [ramfsFileWrite, if_pos appends, here, Option.bind_eq_bind, Option.bind_some,
          Cursor.writeFile_nil (c := ⟨s.1.datanode, a, grants⟩) allocated within]
        change some (WriteResult.mk _ _ s.1 { s.2 with lastDatanode := some a }) = _
        rw [← here]
      rw [fileWrite, if_pos writes, wrote, Option.bind_eq_bind, Option.bind_some, if_neg (not_not_intro rfl), if_pos appends,
        if_pos rfl]
      rfl
  | false =>
      obtain ⟨a, here, allocated⟩ := standing.current (.inr writes)
      rw [appends, if_neg Bool.false_ne_true] at within
      have wrote : s.1.ramfsFileWrite s.2 [] grants = some ⟨.success, 0, s.1, s.2⟩ := by
        rw [ramfsFileWrite, if_neg (by rw [appends]; decide), here, Option.bind_eq_bind, Option.bind_some,
          Cursor.writeFile_nil (c := ⟨s.1.datanode, a, grants⟩) allocated within]
        change some (WriteResult.mk _ _ s.1 { s.2 with currentDatanode := some a }) = _
        rw [← here]
      rw [fileWrite, if_pos writes, wrote, Option.bind_eq_bind, Option.bind_some, if_neg (not_not_intro rfl),
        if_neg (by rw [appends]; decide), if_neg Bool.false_ne_true]
      dsimp only
      rw [Nat.add_zero, if_neg (by omega)]
      rfl

theorem Standing.quiet (standing : Standing s) (quiet : Quiet s call) :
    ∃ r t, handle.transfer transferWrite s call = some (r, t) ∧ handle.Alike s t := by
  cases call with
  | read size =>
      obtain ⟨rfl, quiet⟩ := quiet
      obtain ⟨err, read⟩ : ∃ err, s.1.fileSystem.fileRead (handle.file s) 0 = some (err, [], handle.file s) := by
        refine FileSystem.fileRead_quiet fun readable => (quiet readable).imp_right fun within => ⟨standing.inside, ?_⟩
        obtain ⟨a, here, allocated⟩ := standing.current (.inl readable)
        change s.1.ramfsFileRead s.2.position s.2.currentDatanode 0 = some ⟨.success, [], s.2.currentDatanode⟩
        rw [ramfsFileRead, here, Option.bind_eq_bind, Option.bind_some, readFile_zero allocated within]
        rfl
      refine ⟨.read err [], s, ?_, .inl rfl⟩
      change ((s.1.fileSystem.fileRead (handle.file s) 0).map fun r =>
        (Transferred.read r.1 r.2.1, handle.setFile s r.2.2)) = _
      rw [read]
      rfl
  | write buffer grants =>
      obtain ⟨rfl, quiet⟩ := quiet
      cases writes : s.2.mode.has fileOpenWrite with
      | false =>
          have refused : s.1.fileWrite s.2 [] grants = some ⟨.failed, 0, s.1, s.2⟩ := if_neg (by rw [writes]; decide)
          refine ⟨.wrote (.failed, 0), s, ?_, .inl rfl⟩
          rw [Handle.transfer, transferWrite, refused]
          rfl
      | true =>
          have quiet := quiet writes
          have within : dataOffsetOf (if s.2.mode.has fileOpenAppend then s.1.size else s.2.position) <
              ramfsDatanodeSize := by
            split_ifs at quiet ⊢
            · exact quiet.1
            · exact quiet
          refine ⟨.wrote (.success, 0), _, by
            rw [Handle.transfer, transferWrite, fileWrite_nil standing writes within]; rfl, ?_⟩
          cases appends : s.2.mode.has fileOpenAppend with
          | false => exact .inl rfl
          | true =>
              rw [appends, if_pos rfl] at quiet
              cases readable : s.2.mode.has fileOpenRead with
              | false => exact .inr ⟨appends, readable, s.1.size, rfl⟩
              | true =>
                  refine .inl ?_
                  dsimp only
                  rw [if_pos rfl, ← quiet.2 readable]

/-- What a write to the end answers, by the outcome of `write_file`. -/
def appended (f : File) (d : FileDescription) (w : Cursor.Outcome) : WriteResult :=
  let file := { f with datanode := w.2.2.datanode }
  let description := { d with lastDatanode := some w.2.2.start }
  if w.1 ≠ .success then ⟨w.1, w.2.1, file, description⟩
  else ⟨w.1, w.2.1, { file with size := f.size + w.2.1 }, { description with position := f.size + w.2.1 }⟩

theorem fileWrite_atEnd {f : File} {d : FileDescription} {buffer : List UInt8} {grants : List (Datanodes.Grant Block)}
    (appends : d.mode.has fileOpenAppend) : f.fileWrite d buffer grants =
      if d.mode.has fileOpenWrite then
        (d.lastDatanode.bind fun a =>
          Cursor.writeFile ⟨f.datanode, a, grants⟩ buffer (dataOffsetOf f.size)).map (appended f d)
      else some ⟨.failed, 0, f, d⟩ := by
  rw [fileWrite, ramfsFileWrite]
  split_ifs with writes
  · cases d.lastDatanode with
    | none => rfl
    | some a =>
        simp only [Option.bind_eq_bind, Option.bind_some]
        generalize Cursor.writeFile ⟨f.datanode, a, grants⟩ buffer (dataOffsetOf f.size) = outcome
        cases outcome with
        | none => rfl
        | some w =>
            rw [Option.map_some, appended]
            by_cases failed : w.1 ≠ .success
            · rw [if_pos failed]
              exact if_pos failed
            · rw [if_neg failed]
              exact if_neg failed
  · rfl

theorem appendLaws : handle.AppendLaws transferWrite where
  file _ _ := rfl
  setFile _ _ _ := rfl
  same _ := rfl
  write s p buffer grants appends := by
    obtain ⟨f, mode, position, current, last⟩ := s
    change mode.has fileOpenAppend at appends
    change Option.Rel _ ((f.fileWrite ⟨mode, position, current, last⟩ buffer grants).map _)
      ((f.fileWrite ⟨mode, p, current, last⟩ buffer grants).map _)
    rw [fileWrite_atEnd appends, fileWrite_atEnd appends]
    dsimp only
    cases mode.has fileOpenWrite with
    | false => exact .some ⟨rfl, rfl, .inr ⟨p, rfl⟩⟩
    | true =>
        rw [if_pos rfl, if_pos rfl]
        generalize (last.bind fun a => Cursor.writeFile ⟨f.datanode, a, grants⟩ buffer (dataOffsetOf f.size)) = outcome
        cases outcome with
        | none => exact .none
        | some w =>
            refine .some ?_
            rw [appended, appended]
            split_ifs
            · exact ⟨rfl, rfl, .inr ⟨p, rfl⟩⟩
            · exact ⟨rfl, rfl, .inl rfl⟩

theorem lastLoop_isSome {s : Datanodes Block} {fuel : Nat} {a b : Addr} (done : lastLoop s fuel a = some b) :
    (s b).isSome := by
  induction fuel generalizing a with
  | zero => cases done
  | succ fuel ih =>
      obtain ⟨node, here, done⟩ := Option.bind_eq_some_iff.mp done
      cases next : node.next with
      | none =>
          rw [next] at done
          cases done
          rw [here]
          rfl
      | some a =>
          rw [next] at done
          exact ih done

theorem Standing.of_open {f : File} {slot d : FileDescription} {mode : FileMode} {a : Addr}
    (first : f.datanodeChain = some a) (allocated : (f.datanode a).isSome) (opened : f.fileOpen slot mode = some d) :
    Standing (f, d) := by
  have start : ∀ used : mode.has fileOpenRead ∨ mode.has fileOpenWrite, (mode.has fileOpenWrite || mode.has fileOpenRead) :=
    fun used => by rcases used with bit | bit <;> simp [bit]
  rw [fileOpen, ramfsFileOpen] at opened
  by_cases appends : mode.has fileOpenAppend
  · rw [if_pos appends] at opened
    obtain ⟨last, found, opened⟩ := Option.bind_eq_some_iff.mp opened
    cases opened
    rw [first] at found
    obtain ⟨b, looped, rfl⟩ := Option.map_eq_some_iff.mp found
    exact ⟨fun used => ⟨a, (if_pos (start used)).trans first, allocated⟩, fun _ => ⟨b, rfl, lastLoop_isSome looped⟩,
      Nat.zero_le _⟩
  · rw [if_neg appends] at opened
    cases opened
    exact ⟨fun used => ⟨a, (if_pos (start used)).trans first, allocated⟩, fun impossible => absurd impossible appends,
      Nat.zero_le _⟩

theorem silence : Silence (handle.transfer transferWrite) Legal Standing Quiet handle.Alike where
  good _ _ _ _ standing legal done := standing.step legal done
  quiet _ _ standing quiet := standing.quiet quiet
  alike _ _ call same := appendLaws.alike call same
  symm _ _ := appendLaws.symm
  trans _ _ _ := appendLaws.trans

end File
end Kerosene.Ramfs

/-! ## FAT32 -/

namespace Kerosene.Fat32
open Lib Ramfs Files

namespace Disk
variable {d : Disk} {node : FatNode} {file : FatDescription} {c offset fileSize nextPosition : Nat} {buffer : List UInt8}
variable {s t : Disk × FatNode × FatDescription} {call : Transfer Unit} {r : Transferred WriteErr}

theorem patch_nil (bytes : Nat → UInt8) (offset : Nat) : patch bytes offset [] = bytes :=
  funext fun _ => if_neg fun inside => by
    have length : ([] : List UInt8).length = 0 := rfl
    omega

theorem setData_same (d : Disk) (c : Nat) : d.setData c (d.data c) = d := by
  rw [setData, Function.update_eq_self]

theorem readFile_zero (inside : offset < d.clusterSize) : d.readFile c 0 offset = ⟨.success, [], c⟩ := by
  rw [readFile, Nat.div_eq_of_lt inside, skip]
  dsimp only
  rw [if_neg (not_not_intro rfl)]
  split_ifs
  · rw [List.take_zero]
  · omega
  · omega
  · omega
  · rw [Nat.zero_div, readClusters, List.take_zero]
    rfl

theorem writeFile_nil (inside : offset < d.clusterSize) (kept : nextPosition ≤ fileSize) :
    d.writeFile c [] offset fileSize nextPosition = some ⟨.success, d, c, 0⟩ := by
  rw [writeFile, Nat.div_eq_of_lt inside, advance]
  dsimp only
  rw [if_neg (not_not_intro rfl)]
  by_cases within : offset > 0
  · rw [if_pos within, List.take_nil, patch_nil, setData_same, List.length_nil, if_pos (Nat.zero_le _)]
  · rw [if_neg within, writeRest, List.length_nil, Nat.zero_div, if_neg (Nat.lt_irrefl 0), writeClusters, patch_nil,
      if_pos (decide_eq_true kept), setData_same]
    rfl

def transferWrite (s : Disk × FatNode × FatDescription) (buffer : List UInt8) (_ : Unit) :
    Option (WriteErr × (Disk × FatNode × FatDescription)) :=
  (s.1.fileWrite s.2.1 s.2.2 buffer).map fun r => (r.err, (r.disk, r.node, r.file))

/-- Of length 0 and not at a boundary as the code finds it, save for a read at the end; and a write to the end leaves the
position of a descriptor for reading where it is. -/
def Quiet (s : Disk × FatNode × FatDescription) : Transfer Unit → Prop
  | .read size => size = 0 ∧ (s.2.2.mode.has fileOpenRead → s.2.2.position = s.2.1.size ∨
      s.2.2.position ≤ s.2.1.size ∧ readOffset s.2.2.position s.1.clusterSize < s.1.clusterSize)
  | .write buffer _ => buffer = [] ∧ (s.2.2.mode.has fileOpenWrite → s.2.1.isFile →
      if s.2.2.mode.has fileOpenAppend then
        toUnsigned (writeOffset (toInt s.2.1.size) s.1.clusterSize) < s.1.clusterSize ∧
          (s.2.2.mode.has fileOpenRead → s.2.2.position = s.2.1.size)
      else s.2.2.position ≤ s.2.1.size ∧
        toUnsigned (writeOffset (toInt s.2.2.position) s.1.clusterSize) < s.1.clusterSize)

-- the size has 32 bits
def SizeFits (s : Disk × FatNode × FatDescription) : Prop := s.2.1.size < 2 ^ 32

theorem fileWrite_sizeFits {r : FileResult} (fits : node.size < 2 ^ 32) (done : d.fileWrite node file buffer = some r) :
    r.node.size < 2 ^ 32 := by
  rw [fileWrite] at done
  split_ifs at done with writes isFile
  · obtain ⟨w, wrote, rfl⟩ := Option.map_eq_some_iff.mp done
    dsimp only
    split_ifs
    · exact fits
    · exact Nat.mod_lt _ (by decide)
    · exact Nat.mod_lt _ (by decide)
    · exact fits
  all_goals
    cases done
    exact fits

theorem SizeFits.step (fits : SizeFits s) (done : handle.transfer transferWrite s call = some (r, t)) : SizeFits t := by
  cases call with
  | read size =>
      obtain ⟨r', read, done⟩ := Option.map_eq_some_iff.mp done
      cases done
      exact fits
  | write buffer given =>
      obtain ⟨r', wrote, done⟩ := Option.map_eq_some_iff.mp done
      obtain ⟨w, written, rfl⟩ := Option.map_eq_some_iff.mp wrote
      cases done
      exact fileWrite_sizeFits fits written

theorem toUnsigned_toInt (n : Nat) : toUnsigned (toInt n) = n % 2 ^ 32 := by
  rw [toUnsigned, toInt]
  split_ifs <;> omega

/-- An empty write inside a cluster: at the end of a file to append to, the position goes to the end. -/
theorem fileWrite_nil (fits : node.size < 2 ^ 32) (writes : file.mode.has fileOpenWrite) (isFile : node.isFile)
    (inside : file.mode.has fileOpenAppend = false → file.position ≤ node.size)
    (within : toUnsigned (writeOffset (toInt (if file.mode.has fileOpenAppend then node.size else file.position))
      d.clusterSize) < d.clusterSize) :
    d.fileWrite node file [] = some ⟨.success, d, node,
      { file with position := if file.mode.has fileOpenAppend then node.size else file.position }⟩ := by
  rw [fileWrite, if_neg (not_not_intro writes), if_neg (not_not_intro isFile), fat32FileWrite]
  cases appends : file.mode.has fileOpenAppend with
  | true =>
      rw [appends, if_pos rfl] at within
      have kept : toUnsigned (toInt node.size + ([] : List UInt8).length) ≤ node.size := by
        rw [List.length_nil, Nat.cast_zero, add_zero, toUnsigned_toInt]
        exact Nat.mod_le ..
      rw [if_pos rfl]
      dsimp only
      rw [writeFile_nil within kept, Option.map_some, Option.map_some]
      dsimp only
      rw [if_neg (not_not_intro rfl), appends, if_pos rfl, if_pos rfl, Nat.add_zero, Nat.mod_eq_of_lt fits]
  | false =>
      have inside := inside appends
      rw [appends, if_neg Bool.false_ne_true] at within
      have kept : toUnsigned (toInt file.position + ([] : List UInt8).length) ≤ node.size := by
        rw [List.length_nil, Nat.cast_zero, add_zero, toUnsigned_toInt]
        exact (Nat.mod_le ..).trans inside
      rw [if_neg Bool.false_ne_true]
      dsimp only
      rw [writeFile_nil within kept, Option.map_some, Option.map_some]
      dsimp only
      rw [if_neg (not_not_intro rfl), appends, if_neg Bool.false_ne_true, if_neg Bool.false_ne_true, Nat.add_zero,
        if_neg (by omega)]

theorem SizeFits.quiet (fits : SizeFits s) (quiet : Quiet s call) :
    ∃ r t, handle.transfer transferWrite s call = some (r, t) ∧ handle.Alike s t := by
  cases call with
  | read size =>
      obtain ⟨rfl, quiet⟩ := quiet
      obtain ⟨err, read⟩ : ∃ err, (s.1.fileSystem s.2.1).fileRead (handle.file s) 0 = some (err, [], handle.file s) := by
        refine FileSystem.fileRead_quiet fun readable => (quiet readable).imp_right fun inside => ⟨inside.1, ?_⟩
        change some (s.1.fat32FileRead s.2.2.position s.2.2.currentCluster 0) = some ⟨.success, [], s.2.2.currentCluster⟩
        rw [fat32FileRead, readFile_zero inside.2]
      refine ⟨.read err [], s, ?_, .inl rfl⟩
      change (((s.1.fileSystem s.2.1).fileRead (handle.file s) 0).map fun r =>
        (Transferred.read r.1 r.2.1, handle.setFile s r.2.2)) = _
      rw [read]
      rfl
  | write buffer given =>
      obtain ⟨rfl, quiet⟩ := quiet
      by_cases writes : s.2.2.mode.has fileOpenWrite
      · by_cases isFile : s.2.1.isFile
        · have quiet := quiet writes isFile
          have inside : s.2.2.mode.has fileOpenAppend = false → s.2.2.position ≤ s.2.1.size := fun noAppend => by
            rw [noAppend, if_neg Bool.false_ne_true] at quiet
            exact quiet.1
          have within : toUnsigned (writeOffset (toInt
              (if s.2.2.mode.has fileOpenAppend then s.2.1.size else s.2.2.position)) s.1.clusterSize) < s.1.clusterSize := by
            split_ifs at quiet ⊢
            · exact quiet.1
            · exact quiet.2
          refine ⟨.wrote .success, _, by
            rw [Handle.transfer, transferWrite, fileWrite_nil fits writes isFile inside within]; rfl, ?_⟩
          cases appends : s.2.2.mode.has fileOpenAppend with
          | false => exact .inl rfl
          | true =>
              rw [appends, if_pos rfl] at quiet
              cases readable : s.2.2.mode.has fileOpenRead with
              | false => exact .inr ⟨appends, readable, s.2.1.size, rfl⟩
              | true =>
                  refine .inl ?_
                  dsimp only
                  rw [if_pos rfl, ← quiet.2 readable]
        · refine ⟨.wrote .notFile, s, ?_, .inl rfl⟩
          rw [Handle.transfer, transferWrite, fileWrite, if_neg (not_not_intro writes), if_pos isFile]
          rfl
      · refine ⟨.wrote .failed, s, ?_, .inl rfl⟩
        rw [Handle.transfer, transferWrite, fileWrite, if_pos writes]
        rfl

/-- What a write to the end answers, by the outcome of `write_file`. -/
def appended (node : FatNode) (file : FatDescription) (r : WriteResult) : FileResult :=
  let file := { file with lastCluster := r.current }
  if r.err ≠ .success then ⟨r.err, r.disk, node, file⟩
  else
    let size := (node.size + r.actualWriteSize) % 2 ^ 32
    ⟨.success, r.disk, { node with size := size }, { file with position := size }⟩

theorem fileWrite_atEnd (appends : file.mode.has fileOpenAppend) : d.fileWrite node file buffer =
    if ¬ file.mode.has fileOpenWrite then some ⟨.failed, d, node, file⟩
    else if ¬ node.isFile then some ⟨.notFile, d, node, file⟩
    else (d.writeFile file.lastCluster buffer (toUnsigned (writeOffset (toInt node.size) d.clusterSize)) node.size
      (toUnsigned (toInt node.size + buffer.length))).map (appended node file) := by
  rw [fileWrite, fat32FileWrite]
  split_ifs
  · dsimp only
    rw [Option.map_map]
    refine Option.map_congr fun r _ => ?_
    rw [appended]
    by_cases failed : r.err ≠ .success
    · rw [if_pos failed]
      exact if_pos failed
    · rw [if_neg failed]
      exact (if_neg failed).trans (if_pos appends)
  · rfl
  · rfl

theorem appendLaws : handle.AppendLaws transferWrite where
  file _ _ := rfl
  setFile _ _ _ := rfl
  same _ := rfl
  write s p buffer given appends := by
    obtain ⟨d, node, mode, position, current, last⟩ := s
    change mode.has fileOpenAppend at appends
    change Option.Rel _ ((d.fileWrite node ⟨mode, position, current, last⟩ buffer).map _)
      ((d.fileWrite node ⟨mode, p, current, last⟩ buffer).map _)
    rw [fileWrite_atEnd appends, fileWrite_atEnd appends]
    dsimp only
    split_ifs
    · generalize d.writeFile last buffer (toUnsigned (writeOffset (toInt node.size) d.clusterSize)) node.size
        (toUnsigned (toInt node.size + buffer.length)) = outcome
      cases outcome with
      | none => exact .none
      | some w =>
          refine .some ?_
          rw [appended, appended]
          split_ifs
          · exact ⟨rfl, rfl, .inr ⟨p, rfl⟩⟩
          · exact ⟨rfl, rfl, .inl rfl⟩
    · exact .some ⟨rfl, rfl, .inr ⟨p, rfl⟩⟩
    · exact .some ⟨rfl, rfl, .inr ⟨p, rfl⟩⟩

theorem silence : Silence (handle.transfer transferWrite) (fun _ _ => True) SizeFits Quiet handle.Alike where
  good _ _ _ _ fits _ done := fits.step done
  quiet _ _ fits quiet := fits.quiet quiet
  alike _ _ call same := appendLaws.alike call same
  symm _ _ := appendLaws.symm
  trans _ _ _ := appendLaws.trans

end Disk
end Kerosene.Fat32

/-! ## Every descriptor -/

namespace Kerosene.Files
open Lib Ramfs Fat32

def Transfer.length {ω : Type} : Transfer ω → Nat
  | .read size => size
  | .write buffer _ => buffer.length

/-- From `file_open` on, transfers of length 0 that are put in away from the boundaries change neither what the other
transfers answer nor what is in the file. -/
theorem empty_transfers_silent (mode : FileMode) :
    (∀ (f : File) (slot d : FileDescription) (a : Addr) (l : List (Bool × Transfer (List (Datanodes.Grant Block)))),
      f.datanodeChain = some a → (f.datanode a).isSome → f.fileOpen slot mode = some d →
      Along (File.handle.transfer File.transferWrite)
        (fun s input => File.Legal s input.2 ∧ (input.1 → File.Quiet s input.2)) (f, d) l →
      SameAnswers File.handle.Alike (otherAnswers (File.handle.transfer File.transferWrite) (f, d) l)
        (answers (File.handle.transfer File.transferWrite) (f, d) (others l))) ∧
    (∀ (d : Disk) (node : FatNode) (slot file : FatDescription) (l : List (Bool × Transfer Unit)),
      node.size < 2 ^ 32 → d.fileOpen node slot mode = some file →
      Along (Disk.handle.transfer Disk.transferWrite) (fun s input => input.1 → Disk.Quiet s input.2) (d, node, file) l →
      SameAnswers Disk.handle.Alike (otherAnswers (Disk.handle.transfer Disk.transferWrite) (d, node, file) l)
        (answers (Disk.handle.transfer Disk.transferWrite) (d, node, file) (others l))) :=
  ⟨fun _ _ _ _ _ first allocated opened along => File.silence.insert (.of_open first allocated opened) (.inl rfl) along,
    fun _ _ _ _ _ fits _ along => Disk.silence.insert fits (.inl rfl) (along.imp fun _ _ quiet => ⟨trivial, quiet⟩)⟩

/-! ## A file of 600 bytes -/

section SixHundredBytes

def sixHundredBytes : File :=
  ⟨Datanodes.put (Datanodes.put (fun _ => none) 1 ⟨some 2, Vector.replicate 512 7⟩) 2 ⟨none, Vector.replicate 512 8⟩,
    some 1, 600⟩

def readsAcross : List (Bool × Transfer (List (Datanodes.Grant Block))) :=
  [(false, .read 512), (true, .read 0), (false, .read 2)]

theorem empty_transfers_silent_before :
    SameAnswers File.handle.Alike
      (otherAnswers (File.handle.transfer File.transferWrite) (sixHundredBytes, opened) [(true, .read 0), (false, .read 2)])
      (answers (File.handle.transfer File.transferWrite) (sixHundredBytes, opened) [.read 2]) ∧
    SameAnswers Disk.handle.Alike
      (otherAnswers (Disk.handle.transfer Disk.transferWrite)
        (twoClustersDisk, twoClustersNode, ⟨fileOpenRead ||| fileOpenWrite, 0, 2, 0⟩) [(true, .write [] ()), (false, .read 2)])
      (answers (Disk.handle.transfer Disk.transferWrite)
        (twoClustersDisk, twoClustersNode, ⟨fileOpenRead ||| fileOpenWrite, 0, 2, 0⟩) [.read 2]) := by
  refine ⟨(empty_transfers_silent fileOpenRead).1 sixHundredBytes ⟨0, 0, none, none⟩ opened 1
      [(true, .read 0), (false, .read 2)] rfl rfl rfl ⟨⟨trivial, fun _ => ⟨rfl, fun _ => .inr (by decide)⟩⟩,
        fun _ _ _ => ⟨⟨trivial, fun impossible => ?_⟩, fun _ _ _ => trivial⟩⟩,
    (empty_transfers_silent (fileOpenRead ||| fileOpenWrite)).2 twoClustersDisk twoClustersNode ⟨0, 0, 0, 0⟩
      ⟨fileOpenRead ||| fileOpenWrite, 0, 2, 0⟩ [(true, .write [] ()), (false, .read 2)] (by decide) rfl
      ⟨fun _ => ⟨rfl, fun _ _ => ?_⟩, fun _ _ _ => ⟨fun impossible => ?_, fun _ _ _ => trivial⟩⟩⟩
  · cases impossible
  · exact ⟨by decide, by decide⟩
  · cases impossible

/-- Behind the first datanode, a read of no bytes moves on to the second one, and the next read finds the end. -/
theorem empty_read_loses_rest :
    ¬ ∀ (f : File) (slot d : FileDescription) (mode : FileMode) (a : Addr)
        (l : List (Bool × Transfer (List (Datanodes.Grant Block)))),
      f.datanodeChain = some a → (f.datanode a).isSome → f.fileOpen slot mode = some d →
      Along (File.handle.transfer File.transferWrite)
        (fun s input => File.Legal s input.2 ∧ (input.1 → input.2.length = 0)) (f, d) l →
      SameAnswers File.handle.Alike (otherAnswers (File.handle.transfer File.transferWrite) (f, d) l)
        (answers (File.handle.transfer File.transferWrite) (f, d) (others l)) := by
  intro always
  have same := always sixHundredBytes ⟨0, 0, none, none⟩ opened fileOpenRead 1 readsAcross rfl rfl rfl
    ⟨⟨trivial, fun impossible => by cases impossible⟩, fun _ _ _ => ⟨⟨trivial, fun _ => rfl⟩,
      fun _ _ _ => ⟨⟨trivial, fun impossible => by cases impossible⟩, fun _ _ _ => trivial⟩⟩⟩
  have lost : (otherAnswers (File.handle.transfer File.transferWrite) (sixHundredBytes, opened) readsAcross).map
      (fun r => r.1.getLast?) = some (some (.read .eof [])) := by decide +kernel
  have whole : (answers (File.handle.transfer File.transferWrite) (sixHundredBytes, opened) (others readsAcross)).map
      (fun r => r.1.getLast?) = some (some (.read .success [8, 8])) := by decide +kernel
  generalize otherAnswers (File.handle.transfer File.transferWrite) (sixHundredBytes, opened) readsAcross = x at *
  generalize answers (File.handle.transfer File.transferWrite) (sixHundredBytes, opened) (others readsAcross) = y at *
  cases same with
  | none => cases lost
  | some agree =>
      rw [Option.map_some, agree.1] at lost
      rw [Option.map_some] at whole
      exact absurd (lost.symm.trans whole) (by decide)

end SixHundredBytes
end Kerosene.Files
