import Kerosene.Ramfs.FileRead
import Kerosene.Ramfs.WriteShapes

/-!
# Files built by one descriptor

A descriptor that only writes is at the end of the file at each write, with or without `FILE_OPEN_APPEND`.
-/

namespace Kerosene.Ramfs
open Lib Files

namespace File
variable {f : File} {d : FileDescription} {buffer : List UInt8} {grants : List (Datanodes.Grant Block)} {start : Addr}

/-- The file that `ramfs_node_create` makes: one datanode, whatever it holds. -/
def ramfsNodeCreate (s : Datanodes Block) (grant : Datanodes.Grant Block) : Option (Option File) := do
  let (chain, s) ← s.ramfsAllocateDatanodes 1 none [grant]
  return chain.map fun datanode => ⟨s, some datanode, 0⟩

-- `*datanode_ptr` of `ramfs_file_write`
def pointer (d : FileDescription) : Option Addr :=
  if d.mode.has fileOpenAppend then d.lastDatanode else d.currentDatanode

-- what a write at the end leaves
def wrote (f : File) (d : FileDescription) (o : Cursor.Outcome) : WriteResult :=
  let moved := if d.mode.has fileOpenAppend then { d with lastDatanode := some o.2.2.start }
    else { d with currentDatanode := some o.2.2.start }
  if o.1 = .success then ⟨o.1, o.2.1, ⟨o.2.2.datanode, f.datanodeChain, f.size + o.2.1⟩, { moved with position := f.size + o.2.1 }⟩
  else ⟨o.1, o.2.1, ⟨o.2.2.datanode, f.datanodeChain, f.size⟩, moved⟩

/-- A descriptor that writes where the file ends. -/
structure WritesAtEnd (f : File) (d : FileDescription) : Prop where
  writes : d.mode.has fileOpenWrite
  position : d.mode.has fileOpenAppend = false → d.position = f.size

theorem WritesAtEnd.fileWrite (atEnd : f.WritesAtEnd d) (here : pointer d = some start) :
    f.fileWrite d buffer grants =
      (Cursor.writeFile ⟨f.datanode, start, grants⟩ buffer (dataOffsetOf f.size)).map (f.wrote d) := by
  rw [File.fileWrite, if_pos atEnd.writes, ramfsFileWrite]
  by_cases appends : d.mode.has fileOpenAppend
  · rw [pointer, if_pos appends] at here
    simp only [if_pos appends, here, Option.bind_eq_bind, Option.bind_some]
    cases Cursor.writeFile ⟨f.datanode, start, grants⟩ buffer (dataOffsetOf f.size) with
    | none => rfl
    | some o =>
        obtain ⟨err, n, c⟩ := o
        by_cases success : err = .success <;> simp [wrote, success, appends]
  · rw [pointer, if_neg appends] at here
    have position := atEnd.position (Bool.eq_false_iff.mpr appends)
    simp only [if_neg appends, here, position, Option.bind_eq_bind, Option.bind_some]
    cases Cursor.writeFile ⟨f.datanode, start, grants⟩ buffer (dataOffsetOf f.size) with
    | none => rfl
    | some o =>
        obtain ⟨err, n, c⟩ := o
        by_cases success : err = .success
        · cases n <;> simp [wrote, success, appends, position]
        · simp [wrote, success, appends, position]

theorem wrote_err (f : File) (d : FileDescription) (o : Cursor.Outcome) : (f.wrote d o).err = o.1 ∧ (f.wrote d o).actual = o.2.1 := by
  by_cases success : o.1 = .success <;> simp [wrote, success]

theorem wrote_file (f : File) (d : FileDescription) (o : Cursor.Outcome) : (f.wrote d o).file =
    ⟨o.2.2.datanode, f.datanodeChain, if o.1 = .success then f.size + o.2.1 else f.size⟩ := by
  by_cases success : o.1 = .success <;> simp [wrote, success]

theorem pointer_wrote (f : File) (d : FileDescription) (o : Cursor.Outcome) : pointer (f.wrote d o).description = some o.2.2.start := by
  by_cases appends : d.mode.has fileOpenAppend <;> by_cases success : o.1 = .success <;> simp [wrote, pointer, success, appends]

theorem WritesAtEnd.wrote (atEnd : f.WritesAtEnd d) (o : Cursor.Outcome) :
    (f.wrote d o).file.WritesAtEnd (f.wrote d o).description := by
  have mode : (f.wrote d o).description.mode = d.mode := by
    by_cases appends : d.mode.has fileOpenAppend <;> by_cases success : o.1 = .success <;> simp [File.wrote, success, appends]
  refine ⟨by rw [mode]; exact atEnd.writes, fun noAppend => ?_⟩
  rw [mode] at noAppend
  have position := atEnd.position noAppend
  by_cases success : o.1 = .success <;> simp [File.wrote, success, noAppend, position]

end File

/-! ## Writing again and again -/

/-- A file, the descriptor that writes it, the buffers it wrote, and how many writes failed. -/
structure Writer where
  file : File
  description : FileDescription
  log : List (List UInt8)
  failures : Nat

structure WriteCall where
  buffer : List UInt8
  grants : List (Datanodes.Grant Block)

namespace Writer
open File
variable {w w' : Writer} {call : WriteCall} {nodes : List Addr} {j : Nat}

def step (w : Writer) (call : WriteCall) : Option Writer := do
  let r ← w.file.fileWrite w.description call.buffer call.grants
  if r.err = .success then return ⟨r.file, r.description, w.log ++ [call.buffer], w.failures⟩
  else return ⟨r.file, r.description, w.log, w.failures + 1⟩

/-- Writes of positive length, for which `rmalloc` answers as is allowed. -/
def machine (Allowed : WriteCall → Prop) : Machine Writer WriteCall where
  Legal w call := call.buffer ≠ [] ∧ w.file.datanode.Fresh call.grants ∧ Allowed call
  step := step

/-- `rmalloc` has a block whenever the write asks for one. -/
def Granted (call : WriteCall) : Prop :=
  ∃ given : List (Addr × Datanode Block), call.grants = given.map some ∧
    call.buffer.length / ramfsDatanodeSize + 1 ≤ given.length

/-- The length of the last write. -/
def last (log : List (List UInt8)) : Nat := (log.getLast?.getD []).length

/-- The writer points into the chain of the file, at the datanode of the last byte or behind it. -/
structure Points (w : Writer) (nodes : List Addr) (j : Nat) : Prop where
  atEnd : w.file.WritesAtEnd w.description
  chain : w.file.datanode.Chain w.file.datanodeChain nodes
  here : ∃ start, pointer w.description = some start ∧ nodes[j]? = some start
  covers : w.file.size ≤ 512 * (j + 1)

/-- No write has failed: the file holds what was written, and at most one datanode is spare. -/
structure Clean (w : Writer) (nodes : List Addr) (j : Nat) : Prop where
  size : w.file.size = w.log.flatten.length
  stored : w.log.flatten <+: w.file.datanode.bytes nodes
  index : j = (w.file.size - 1) / 512
  length : nodes.length = (w.file.size - 1) / 512 + 1 + if 512 ∣ w.file.size ∧ 512 ≤ last w.log then 1 else 0

structure Built (w : Writer) (nodes : List Addr) (j : Nat) : Prop extends Points w nodes j where
  clean : w.failures = 0 → w.Clean nodes j

theorem Points.at_ (points : w.Points nodes j) (fresh : w.file.datanode.Fresh call.grants) :
    ∃ start, pointer w.description = some start ∧
      Cursor.At ⟨w.file.datanode, start, call.grants⟩ w.file.datanodeChain nodes j [] := by
  obtain ⟨start, here, there⟩ := points.here
  exact ⟨start, here, points.chain, there, List.nil_prefix, fresh⟩

theorem last_le (log : List (List UInt8)) : last log ≤ log.flatten.length := by
  rcases List.eq_nil_or_concat log with rfl | ⟨front, b, rfl⟩
  · rfl
  · rw [last, List.concat_eq_append, List.getLast?_concat, Option.getD_some, List.flatten_append, List.flatten_singleton,
      List.length_append]
    exact Nat.le_add_left ..

theorem spare_step {size length p n : Nat} (positive : 0 < n) (part : p ≤ size)
    (before : length = (size - 1) / 512 + 1 + if 512 ∣ size ∧ 512 ≤ p then 1 else 0) :
    (if 512 ≤ n - Cursor.padding size then (size + n) / 512 + 1 else max length ((size + n - 1) / 512 + 1)) =
      (size + n - 1) / 512 + 1 + if 512 ∣ size + n ∧ 512 ≤ n then 1 else 0 := by
  have pad : Cursor.padding size = (512 - size % 512) % 512 := rfl
  rw [before, pad]
  split_ifs <;> omega

theorem Clean.append {c : Cursor} {nodes' : List Addr} {j' n : Nat} {start : Addr} (points : w.Points nodes j)
    (clean : w.Clean nodes j) (fresh : w.file.datanode.Fresh call.grants) (nonempty : call.buffer ≠ [])
    (here : nodes[j]? = some start)
    (written : Cursor.writeFile ⟨w.file.datanode, start, call.grants⟩ call.buffer (dataOffsetOf w.file.size) = some (.success, n, c))
    (at' : c.At w.file.datanodeChain nodes' j' [])
    (length : nodes'.length = if 512 ≤ call.buffer.length - Cursor.padding w.file.size then
      (w.file.size + call.buffer.length) / 512 + 1 else max nodes.length ((w.file.size + call.buffer.length - 1) / 512 + 1))
    (description : FileDescription) (failures : Nat) :
    Clean ⟨⟨c.datanode, w.file.datanodeChain, w.file.size + call.buffer.length⟩, description, w.log ++ [call.buffer], failures⟩
      nodes' j' := by
  obtain ⟨position, small⟩ := dataOffsetOf_spec w.file.size
  have index := clean.index
  have positive := List.length_pos_iff.mpr nonempty
  have at_ : Cursor.At ⟨w.file.datanode, start, call.grants⟩ w.file.datanodeChain nodes j w.log.flatten :=
    ⟨points.chain, here, clean.stored, fresh⟩
  have total : w.file.size + call.buffer.length = (w.log.flatten ++ call.buffer).length := by
    rw [List.length_append, clean.size]
  have offsetAt : w.log.flatten.length = 512 * j + dataOffsetOf w.file.size := by
    rw [← clean.size, index]
    exact position
  obtain ⟨-, nodes'', j'', at'', low, high⟩ := Cursor.writeFile_spec at_ offsetAt small nonempty written
  -- both lemmas speak of the same chain and of the same datanode in it
  obtain rfl := at'.chain.links.unique at''.chain.links
  have same : nodes'[j']? = nodes'[j'']? := by rw [at'.here, at''.here]
  have inside := at'.lt
  obtain rfl := (List.getElem?_inj inside at'.chain.nodup).mp same
  rw [← total] at low high
  refine ⟨?_, ?_, ?_, ?_⟩
  · rw [List.flatten_append, List.flatten_singleton]
    exact total
  · rw [List.flatten_append, List.flatten_singleton]
    exact at''.stored
  · dsimp only
    omega
  · have part := last_le w.log
    rw [← clean.size] at part
    rw [length, spare_step positive part clean.length, last, List.getLast?_concat, Option.getD_some]

theorem Built.step (built : w.Built nodes j) (nonempty : call.buffer ≠ []) (fresh : w.file.datanode.Fresh call.grants)
    (done : w.step call = some w') : ∃ nodes' j', w'.Built nodes' j' := by
  obtain ⟨start, here, at_⟩ := built.at_ fresh
  obtain ⟨position, small⟩ := dataOffsetOf_spec w.file.size
  have blockSize : ramfsDatanodeSize = 512 := rfl
  have covers := built.covers
  rw [blockSize] at position
  rw [Writer.step, built.atEnd.fileWrite here] at done
  obtain ⟨r, wrote, done⟩ := Option.bind_eq_some_iff.mp done
  obtain ⟨⟨err, n, c⟩, written, rfl⟩ := Option.map_eq_some_iff.mp wrote
  obtain ⟨nodes', j', at', later, left⟩ := at_.writeFile_shape rfl small nonempty written
  have atEnd := built.atEnd.wrote (err, n, c)
  have moved := pointer_wrote w.file w.description (err, n, c)
  have file := wrote_file w.file w.description (err, n, c)
  rw [(wrote_err ..).1] at done
  by_cases success : err = .success
  · rw [if_pos success] at done
    cases done
    rw [if_pos success] at file
    obtain ⟨before, length, at₀⟩ := at_.before small
    subst success
    obtain ⟨rfl, -⟩ := Cursor.writeFile_spec at₀ length small nonempty written
    obtain ⟨reaches, long⟩ := left rfl
    refine ⟨nodes', j', ⟨atEnd, by rw [file]; exact at'.chain, ⟨c.start, moved, at'.here⟩, ?_⟩, fun none => ?_⟩
    · rw [file]
      dsimp only
      omega
    · obtain ⟨start', here', there⟩ := built.here
      obtain rfl : start = start' := Option.some.inj (here.symm.trans here')
      have clean := built.clean none
      have place : 512 * j + dataOffsetOf w.file.size = w.file.size := by
        rw [clean.index]
        exact position.symm
      rw [place] at long
      have kept := clean.append built.toPoints fresh nonempty there written at' long
      rw [file]
      exact kept _ _
  · rw [if_neg success] at done
    cases done
    rw [if_neg success] at file
    refine ⟨nodes', j', ⟨atEnd, by rw [file]; exact at'.chain, ⟨c.start, moved, at'.here⟩, ?_⟩, fun none => ?_⟩
    · rw [file]
      dsimp only
      omega
    · cases none

variable {s : Datanodes Block} {grant : Datanodes.Grant Block} {f : File} {slot d : FileDescription} {mode : FileMode}

/-- The writer that has just opened a new file. -/
structure Opened (s : Datanodes Block) (grant : Datanodes.Grant Block) (w : Writer) : Prop where
  fresh : s.Fresh [grant]
  created : ramfsNodeCreate s grant = some (some w.file)
  opened : ∃ slot mode, mode.has fileOpenWrite ∧ w.file.fileOpen slot mode = some w.description
  log : w.log = []
  failures : w.failures = 0

theorem Opened.built (opened : Opened s grant w) : ∃ nodes j, w.Built nodes j := by
  obtain ⟨slot, mode, writes, done⟩ := opened.opened
  have created := opened.created
  simp only [ramfsNodeCreate, Option.bind_eq_bind, Option.bind_eq_some_iff, Option.pure_def, Option.some.injEq,
    Prod.exists] at created
  obtain ⟨chain, s', allocated, made⟩ := created
  obtain ⟨a, rfl, file⟩ := Option.map_eq_some_iff.mp made
  obtain ⟨given, length, chain, -⟩ := Datanodes.ramfsAllocateDatanodes_spec opened.fresh allocated
  obtain ⟨block, rfl⟩ := List.length_eq_one_iff.mp length
  have first : block.1 = a := (Option.some.inj chain.links.1).symm
  have size : w.file.size = 0 := by rw [← file]
  have chain : w.file.datanode.Chain w.file.datanodeChain [a] := by
    rw [← file]
    rwa [List.map_singleton, first] at chain
  have head : w.file.datanodeChain = some a := by rw [← file]
  have last := ramfsGetLastDatanodeOfChain_chain chain
  have described : w.description.mode = mode ∧ w.description.position = 0 ∧ w.description.currentDatanode = some a ∧
      (mode.has fileOpenAppend → w.description.lastDatanode = some a) := by
    rw [head] at last
    by_cases appends : mode.has fileOpenAppend
    · simp only [fileOpen, ramfsFileOpen, writes, last, head, appends, Bool.true_or, if_true, Option.bind_eq_bind,
        Option.bind_some] at done
      rw [← Option.some.inj done]
      exact ⟨rfl, rfl, rfl, fun _ => rfl⟩
    · simp only [fileOpen, ramfsFileOpen, writes, head, appends, Bool.true_or, if_true, Bool.false_eq_true, if_false] at done
      rw [← Option.some.inj done]
      exact ⟨rfl, rfl, rfl, fun again => absurd again appends⟩
  obtain ⟨sameMode, start, current, lastly⟩ := described
  have here : pointer w.description = some a := by
    rw [pointer, sameMode]
    split_ifs with appends
    · exact lastly appends
    · exact current
  refine ⟨[a], 0, ⟨⟨by rw [sameMode]; exact writes, fun _ => by rw [start, size]⟩, chain, ⟨a, here, rfl⟩, by omega⟩, fun _ => ?_⟩
  refine ⟨by rw [size, opened.log]; rfl, by rw [opened.log]; exact List.nil_prefix, by rw [size], ?_⟩
  rw [size, opened.log]
  rfl

theorem built_of_reaches {start : Writer} {Allowed : WriteCall → Prop} (opened : Opened s grant start)
    (run : (machine Allowed).Reaches start w) : ∃ nodes j, w.Built nodes j := by
  refine run.invariant (I := fun w => ∃ nodes j, Built w nodes j) ?_ opened.built
  rintro w call w' ⟨nodes, j, built⟩ ⟨nonempty, fresh, -⟩ done
  exact built.step nonempty fresh done

/-! ## Writing a new file from its start to its end -/

theorem Points.fileWrite (points : w.Points nodes j) (nonempty : call.buffer ≠ []) (fresh : w.file.datanode.Fresh call.grants)
    (granted : Granted call) :
    ∃ r, w.file.fileWrite w.description call.buffer call.grants = some r ∧ r.err = .success ∧
      r.actual = call.buffer.length := by
  obtain ⟨start, here, at_⟩ := points.at_ fresh
  obtain ⟨given, grants, enough⟩ := granted
  obtain ⟨-, small⟩ := dataOffsetOf_spec w.file.size
  obtain ⟨c, nodes', j', base, done, -⟩ := (at_.holds rfl).writeFile rfl small nonempty grants enough
  exact ⟨_, by rw [points.atEnd.fileWrite here, done]; rfl, wrote_err ..⟩

theorem granted_step (legal : (machine Granted).Legal w call) (points : w.Points nodes j) (done : w.step call = some w') :
    w'.failures = w.failures := by
  obtain ⟨nonempty, fresh, granted⟩ := legal
  obtain ⟨r, wrote, success, -⟩ := points.fileWrite nonempty fresh granted
  rw [Writer.step, wrote, Option.bind_eq_bind, Option.bind_some, if_pos success] at done
  cases done
  rfl

theorem no_failures {start : Writer} (opened : Opened s grant start) (run : (machine Granted).Reaches start w) :
    w.failures = 0 := by
  refine (run.invariant (I := fun w => (∃ nodes j, Built w nodes j) ∧ w.failures = 0) ?_ ⟨opened.built, opened.failures⟩).2
  rintro w call w' ⟨⟨nodes, j, built⟩, none⟩ legal done
  exact ⟨built.step legal.1 legal.2.1 done, (granted_step legal built.toPoints done).trans none⟩

/-- While `rmalloc` has blocks, each write to a new file takes its whole buffer, and a descriptor opened
later reads the buffers in their order, wherever one ends and the next begins. -/
theorem sequential_writes {start : Writer} {m : FileMode} (opened : Opened s grant start)
    (run : (machine Granted).Reaches start w) (readable : m.has fileOpenRead) :
    (∀ call, (machine Granted).Legal w call →
      ∃ r, w.file.fileWrite w.description call.buffer call.grants = some r ∧ r.err = .success ∧
        r.actual = call.buffer.length) ∧
    w.file.size = w.log.flatten.length ∧
    (w.file.size < 2 ^ 32 → ∀ slot sizes, (∀ n ∈ sizes, 0 < n) →
      ∃ file', w.file.fileSystem.fileReads (w.file.fileSystem.fileOpen slot m) sizes =
        some (pieces w.log.flatten sizes, file')) := by
  obtain ⟨nodes, j, built⟩ := built_of_reaches opened run
  have clean := built.clean (no_failures opened run)
  refine ⟨fun call ⟨nonempty, fresh, granted⟩ => built.fileWrite nonempty fresh granted, clean.size,
    fun small slot sizes positive => ?_⟩
  exact (reads built.chain clean.stored clean.size small).sequential readable slot positive

/-! ## Two writes to a new file -/

section TwoWrites

def blank : Datanode Block := ⟨none, Vector.replicate 512 0⟩

-- the mode of `fopen(path, "w")`, without `FILE_OPEN_TRUNCATE`
def newWriter : Writer :=
  ⟨⟨Datanodes.setNext (Datanodes.put (fun _ => none) 1 blank) 1 none, some 1, 0⟩, ⟨fileOpenWrite, 0, some 1, none⟩, [], 0⟩

theorem newWriter_opened : Opened (fun _ => none) (some (1, blank)) newWriter where
  fresh := ⟨fun _ _ => rfl, List.nodup_singleton 1⟩
  created := rfl
  opened := ⟨newWriter.description, fileOpenWrite, rfl, rfl⟩
  log := rfl
  failures := rfl

def longWrite : WriteCall := ⟨List.replicate 512 1, [some (2, blank), some (3, blank)]⟩

def shortWrite : WriteCall := ⟨[2, 3, 4], [some (4, blank)]⟩

def after (w : Writer) (call : WriteCall) : Writer := (w.step call).getD w

theorem step_after (moves : (w.step call).isSome) : w.step call = some (after w call) := by
  obtain ⟨w', done⟩ := Option.isSome_iff_exists.mp moves
  rw [after, done, Option.getD_some]

theorem longWrite_fresh : newWriter.file.datanode.Fresh longWrite.grants := by
  refine ⟨fun a member => ?_, by decide⟩
  have two : a ∈ ([2, 3] : List Addr) := member
  rcases List.mem_cons.mp two with rfl | two
  · rfl
  · rw [List.mem_singleton.mp two]
    rfl

theorem longWrite_nonempty : longWrite.buffer ≠ [] := List.cons_ne_nil 1 (List.replicate 511 1)

theorem twoWrites_run : (newWriter.step longWrite).isSome ∧ ((after newWriter longWrite).file.datanode 4).isNone ∧
    ((after newWriter longWrite).step shortWrite).isSome ∧ (after (after newWriter longWrite) shortWrite).file.size = 515 := by
  decide +kernel

theorem shortWrite_fresh : (after newWriter longWrite).file.datanode.Fresh shortWrite.grants := by
  refine ⟨fun a member => ?_, by decide⟩
  have one : a ∈ ([4] : List Addr) := member
  rw [List.mem_singleton.mp one]
  exact Option.isNone_iff_eq_none.mp twoWrites_run.2.1

theorem twoWrites_reaches : (machine Granted).Reaches newWriter (after (after newWriter longWrite) shortWrite) := by
  obtain ⟨longRuns, _, shortRuns, _⟩ := twoWrites_run
  have length : longWrite.buffer.length = 512 := List.length_replicate
  have long : Granted longWrite := ⟨[(2, blank), (3, blank)], rfl, by rw [length]; decide⟩
  have short : Granted shortWrite := ⟨[(4, blank)], rfl, by simp [shortWrite, ramfsDatanodeSize]⟩
  have first := (Machine.Reaches.refl (M := machine Granted) newWriter).snoc ⟨longWrite_nonempty, longWrite_fresh, long⟩
    (step_after longRuns)
  exact first.snoc ⟨by simp [shortWrite], shortWrite_fresh, short⟩ (step_after shortRuns)

/-- The first write ends on the edge of a datanode, and reads cut the bytes elsewhere. -/
theorem sequential_writes_two :
    (after (after newWriter longWrite) shortWrite).file.size = (after (after newWriter longWrite) shortWrite).log.flatten.length ∧
    ∃ file', (after (after newWriter longWrite) shortWrite).file.fileSystem.fileReads
      ((after (after newWriter longWrite) shortWrite).file.fileSystem.fileOpen ⟨0#16, 0, none⟩ fileOpenRead) [511, 9] =
        some (pieces (after (after newWriter longWrite) shortWrite).log.flatten [511, 9], file') := by
  obtain ⟨-, size, read⟩ := sequential_writes newWriter_opened twoWrites_reaches (m := fileOpenRead) rfl
  have small : (after (after newWriter longWrite) shortWrite).file.size < 2 ^ 32 := by
    rw [twoWrites_run.2.2.2]
    decide
  exact ⟨size, read small ⟨0#16, 0, none⟩ [511, 9] (by decide)⟩

end TwoWrites
end Writer
end Kerosene.Ramfs
