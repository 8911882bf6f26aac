import Kerosene.Lib.Machine
import Kerosene.Ramfs.FileWrite

/-!
# Appending through several descriptors

Each descriptor keeps the last datanode it saw; the size is the file's.
-/

namespace Kerosene.Ramfs
open Lib

/-! ## The content of a file -/

namespace Datanodes
variable {s : Datanodes Block} {first : Option Addr} {nodes : List Addr}

-- datanode `k` of a chain
def nth (s : Datanodes Block) : Nat → Option Addr → Option Addr
  | 0, first => first
  | k + 1, first => s.nth k (first.bind s.link)

theorem Chain.nth (chain : s.Chain first nodes) (k : Nat) : s.nth k first = nodes[k]? := by
  have none : ∀ k, s.nth k none = none := fun k => by
    induction k with
    | zero => rfl
    | succ k ih => exact ih
  induction k generalizing first nodes with
  | zero => rw [Datanodes.nth, chain.links.head, List.head?_eq_getElem?]
  | succ k ih =>
      cases nodes with
      | nil =>
          have : first = .none := chain.links
          rw [this, none]
          rfl
      | cons a rest =>
          obtain ⟨node, rfl, here, tail⟩ := chain_cons.mp chain
          rw [Datanodes.nth, Option.bind_some, link, here, Option.bind_some, ih tail]
          rfl

end Datanodes

namespace File
variable {f : File} {d : FileDescription} {content buffer : List UInt8} {grants : List (Datanodes.Grant Block)}
variable {r : WriteResult}

structure Contains (f : File) (content : List UInt8) : Prop where
  size : f.size = content.length
  stored : ∃ nodes, f.datanode.Chain f.datanodeChain nodes ∧ content <+: f.datanode.bytes nodes

/-- The datanode that a descriptor appends to holds the last byte of the file; it is the first one
when the file is empty. -/
def AtTail (f : File) (d : FileDescription) : Prop :=
  d.lastDatanode = f.datanode.nth ((f.size - 1) / ramfsDatanodeSize) f.datanodeChain

theorem Contains.getElem? {a : Addr} {node : Datanode Block} {i : Nat} (contains : f.Contains content)
    (first : f.datanodeChain = some a) (here : f.datanode a = some node) (inFile : i < f.size) (inNode : i < 512) :
    content[i]? = node.data.toList[i]? := by
  obtain ⟨nodes, chain, rest, stored⟩ := contains.stored
  rw [first] at chain
  cases nodes with
  | nil => cases chain.links
  | cons b nodes =>
      have same : some a = some b := chain.links.1
      cases same
      rw [← List.getElem?_append_left (by rw [← contains.size]; exact inFile), stored, Datanodes.bytes_cons,
        Datanodes.row_eq here, List.getElem?_append_left (by rw [Vector.length_toList]; exact inNode)]

theorem lastLoop_chain {s : Datanodes Block} {fuel : Nat} {a : Addr} {nodes : List Addr}
    (chain : s.Chain (some a) (a :: nodes)) (enough : nodes.length < fuel) :
    lastLoop s fuel a = (a :: nodes).getLast? := by
  induction nodes generalizing a fuel with
  | nil =>
      obtain ⟨node, -, here, ends⟩ := Datanodes.chain_cons.mp chain
      obtain ⟨fuel, rfl⟩ : ∃ n, fuel = n + 1 := ⟨fuel - 1, by omega⟩
      have next : node.next = none := ends.links
      simp only [lastLoop, here, next, Option.bind_eq_bind, Option.bind_some]
      rfl
  | cons b nodes ih =>
      obtain ⟨node, -, here, tail⟩ := Datanodes.chain_cons.mp chain
      obtain ⟨fuel, rfl⟩ : ∃ n, fuel = n + 1 := ⟨fuel - 1, by omega⟩
      have next : node.next = some b := tail.links.1
      rw [next] at tail
      simp only [lastLoop, here, next, Option.bind_eq_bind, Option.bind_some]
      rw [ih tail (by simp at enough; omega), List.getLast?_cons_cons]

theorem ramfsGetLastDatanodeOfChain_chain {s : Datanodes Block} {first : Option Addr} {nodes : List Addr}
    (chain : s.Chain first nodes) : ramfsGetLastDatanodeOfChain s first = some nodes.getLast? := by
  cases nodes with
  | nil =>
      have : first = none := chain.links
      rw [this]
      rfl
  | cons a rest =>
      obtain rfl : first = some a := chain.links.1
      have bound := chain.length_le
      rw [ramfsGetLastDatanodeOfChain, lastLoop_chain chain (by simp at bound; omega)]
      simp [List.getLast?_cons]

theorem fileOpen_spec {slot : FileDescription} {mode : FileMode} {nodes : List Addr}
    (chain : f.datanode.Chain f.datanodeChain nodes) (appends : mode.has fileOpenAppend)
    (opened : f.fileOpen slot mode = some d) : d.mode = mode ∧ d.lastDatanode = nodes.getLast? := by
  have last := ramfsGetLastDatanodeOfChain_chain chain
  simp only [fileOpen, ramfsFileOpen, appends, last, if_true, Option.bind_eq_bind, Option.bind_some, Option.pure_def,
    Option.some.injEq] at opened
  subst opened
  exact ⟨rfl, rfl⟩

theorem fileOpen_atTail {slot : FileDescription} {mode : FileMode} {nodes : List Addr}
    (chain : f.datanode.Chain f.datanodeChain nodes) (used : nodes.length = (f.size - 1) / ramfsDatanodeSize + 1)
    (appends : mode.has fileOpenAppend) (opened : f.fileOpen slot mode = some d) : f.AtTail d := by
  rw [AtTail, (fileOpen_spec chain appends opened).2, chain.nth, List.getLast?_eq_getElem?, used, Nat.add_sub_cancel]

-- where the next byte goes, from the datanode of the last one
theorem dataOffsetOf_spec (size : Nat) :
    size = 512 * ((size - 1) / ramfsDatanodeSize) + dataOffsetOf size ∧ dataOffsetOf size ≤ 512 := by
  have blockSize : ramfsDatanodeSize = 512 := rfl
  rw [dataOffsetOf, blockSize]
  split_ifs <;> omega

theorem fileWrite_append (contains : f.Contains content) (tail : f.AtTail d) (fresh : f.datanode.Fresh grants)
    (nonempty : buffer ≠ []) (writes : d.mode.has fileOpenWrite) (appends : d.mode.has fileOpenAppend)
    (done : f.fileWrite d buffer grants = some r) (success : r.err = .success) :
    r.file.Contains (content ++ buffer) ∧ r.file.AtTail r.description ∧ r.description.mode = d.mode := by
  simp only [fileWrite, writes, ramfsFileWrite, appends, if_true, Option.bind_eq_bind, Option.bind_eq_some_iff,
    Prod.exists, Option.pure_def, Option.some.injEq] at done
  obtain ⟨r', ⟨start, isLast, err, n, c, wrote, rfl⟩, done⟩ := done
  dsimp only at done
  split_ifs at done with failed
  · cases done
    exact absurd success failed
  · cases done
    have success : err = .success := not_ne_iff.mp failed
    subst success
    obtain ⟨nodes, chain, stored⟩ := contains.stored
    obtain ⟨position, small⟩ := dataOffsetOf_spec f.size
    have at_ : Cursor.At ⟨f.datanode, start, grants⟩ f.datanodeChain nodes ((f.size - 1) / ramfsDatanodeSize) content :=
      ⟨chain, by rw [← chain.nth, ← tail, isLast], stored, fresh⟩
    obtain ⟨rfl, nodes', j, at', ends⟩ := Cursor.writeFile_spec at_ (by rw [← contains.size]; exact position) small
      nonempty wrote
    have length : f.size + buffer.length = (content ++ buffer).length := by rw [List.length_append, contains.size]
    refine ⟨⟨length, nodes', at'.chain, at'.stored⟩, ?_, rfl⟩
    have index : (f.size + buffer.length - 1) / ramfsDatanodeSize = j := by
      have blockSize : ramfsDatanodeSize = 512 := rfl
      rw [← length] at ends
      obtain ⟨low, high⟩ := ends
      rw [blockSize]
      omega
    rw [AtTail, index, at'.chain.nth, at'.here]

end File

/-! ## Descriptors on one file -/

/-- The file, its descriptors, and the buffers written so far. -/
structure Appenders (ι : Type) where
  file : File
  description : ι → FileDescription
  log : List (List UInt8)

structure AppendCall (ι : Type) where
  fd : ι
  buffer : List UInt8
  grants : List (Datanodes.Grant Block)

namespace Appenders
variable {ι : Type} [DecidableEq ι]

-- a call that fails is no step
def step (s : Appenders ι) (call : AppendCall ι) : Option (Appenders ι) := do
  let r ← s.file.fileWrite (s.description call.fd) call.buffer call.grants
  if r.err = .success then
    return ⟨r.file, Function.update s.description call.fd r.description, s.log ++ [call.buffer]⟩
  else none

/-- Non-empty writes through descriptors that meet a condition. -/
def machine (ι : Type) [DecidableEq ι] (Allowed : File → FileDescription → Prop) : Machine (Appenders ι) (AppendCall ι) where
  Legal s call := call.buffer ≠ [] ∧ s.file.datanode.Fresh call.grants ∧ Allowed s.file (s.description call.fd)
  step := step

/-- Every descriptor was opened with `FILE_OPEN_WRITE` and `FILE_OPEN_APPEND`, and none has written. -/
structure Opened (s : Appenders ι) (content : List UInt8) : Prop where
  contains : s.file.Contains content
  opened : ∀ fd, ∃ slot mode, mode.has fileOpenWrite ∧ mode.has fileOpenAppend ∧
    s.file.fileOpen slot mode = some (s.description fd)
  log : s.log = []

/-! ## Whole runs -/

structure InOrder (s : Appenders ι) (content : List UInt8) : Prop where
  contains : s.file.Contains (content ++ s.log.flatten)
  modes : ∀ fd, (s.description fd).mode.has fileOpenWrite ∧ (s.description fd).mode.has fileOpenAppend

omit [DecidableEq ι] in
theorem Opened.inOrder {s : Appenders ι} {content : List UInt8} (opened : s.Opened content) : s.InOrder content := by
  obtain ⟨nodes, chain, -⟩ := opened.contains.stored
  refine ⟨?_, fun fd => ?_⟩
  · rw [opened.log, List.flatten_nil, List.append_nil]
    exact opened.contains
  · obtain ⟨slot, mode, writes, appends, done⟩ := opened.opened fd
    rw [(File.fileOpen_spec chain appends done).1]
    exact ⟨writes, appends⟩

theorem InOrder.step {s s' : Appenders ι} {content : List UInt8} {call : AppendCall ι} (inOrder : s.InOrder content)
    (legal : (machine ι File.AtTail).Legal s call) (step : s.step call = some s') : s'.InOrder content := by
  obtain ⟨nonempty, fresh, tail⟩ := legal
  obtain ⟨writes, appends⟩ := inOrder.modes call.fd
  simp only [Appenders.step, Option.bind_eq_bind, Option.bind_eq_some_iff] at step
  obtain ⟨r, wrote, step⟩ := step
  split_ifs at step with success
  cases step
  obtain ⟨contains, -, mode⟩ := File.fileWrite_append inOrder.contains tail fresh nonempty writes appends wrote success
  refine ⟨?_, fun fd => ?_⟩
  · simpa using contains
  · by_cases same : fd = call.fd
    · subst same
      simpa [mode] using ⟨writes, appends⟩
    · simpa [same] using inOrder.modes fd

/-- Appends through descriptors that are at the tail when they write come one after the other. -/
theorem appends_in_order {start s : Appenders ι} {content : List UInt8} (opened : start.Opened content)
    (run : (machine ι File.AtTail).Reaches start s) : s.file.Contains (content ++ s.log.flatten) :=
  (run.invariant (I := fun s : Appenders ι => s.InOrder content) (fun _ _ _ inOrder legal step => inOrder.step legal step)
    opened.inOrder).contains

/-! ## Two descriptors on a new file -/

section TwoDescriptors

-- `ramfs_node_create` gives a new file one datanode
def newFile : File := ⟨Datanodes.put (fun _ => none) 1 ⟨none, Vector.replicate 512 0⟩, some 1, 0⟩

def appender : FileDescription := ⟨fileOpenWrite ||| fileOpenAppend, 0, some 1, some 1⟩

def twoAppenders : Appenders Bool := ⟨newFile, fun _ => appender, []⟩

theorem twoAppenders_opened : twoAppenders.Opened [] := by
  have opened : newFile.fileOpen appender (fileOpenWrite ||| fileOpenAppend) = some appender := by decide
  refine ⟨⟨rfl, [1], Datanodes.chain_cons.mpr ⟨⟨none, Vector.replicate 512 0⟩, rfl, rfl, rfl, by simp⟩, List.nil_prefix⟩,
    fun fd => ⟨appender, fileOpenWrite ||| fileOpenAppend, rfl, rfl, opened⟩, rfl⟩

def longCall : AppendCall Bool := ⟨false, List.replicate 513 1, [some (2, ⟨none, Vector.replicate 512 0⟩)]⟩

def shortCall : AppendCall Bool := ⟨true, [2], []⟩

def after (s : Appenders Bool) (call : AppendCall Bool) : Appenders Bool := (s.step call).getD s

theorem step_after {s : Appenders Bool} {call : AppendCall Bool} (moves : (s.step call).isSome) :
    s.step call = some (after s call) := by
  obtain ⟨s', step⟩ := Option.isSome_iff_exists.mp moves
  rw [after, step, Option.getD_some]

theorem longCall_fresh : twoAppenders.file.datanode.Fresh longCall.grants := by
  refine ⟨fun a member => ?_, by decide⟩
  have : a = 2 := List.mem_singleton.mp member
  subst this
  rfl

theorem longCall_nonempty : longCall.buffer ≠ [] := List.cons_ne_nil 1 (List.replicate 512 1)

-- byte 1 of the file was written by the first call
theorem bothCalls_run : (twoAppenders.step longCall).isSome ∧ ((after twoAppenders longCall).step shortCall).isSome ∧
    (after (after twoAppenders longCall) shortCall).file.datanodeChain = some 1 ∧
    1 < (after (after twoAppenders longCall) shortCall).file.size ∧
    ((after (after twoAppenders longCall) shortCall).file.datanode 1).bind (fun node => node.data.toList[1]?) = some 2 ∧
    (after (after twoAppenders longCall) shortCall).log.flatten[1]? = some 1 := by
  decide +kernel

def firstCall : AppendCall Bool := ⟨false, [7, 8], []⟩

-- the two descriptors write in turn, and the last of three writes takes a datanode
def bothShort : Appenders Bool := after (after twoAppenders firstCall) shortCall

theorem threeCalls_run : (twoAppenders.step firstCall).isSome ∧ ((after twoAppenders firstCall).step shortCall).isSome ∧
    (bothShort.step longCall).isSome ∧ (bothShort.file.datanode 2).isNone ∧
    ((after twoAppenders firstCall).description true).lastDatanode = some 1 ∧ (after twoAppenders firstCall).file.size = 2 ∧
    (bothShort.description false).lastDatanode = some 1 ∧ bothShort.file.size = 3 ∧
    (after twoAppenders firstCall).file.datanodeChain = some 1 ∧ bothShort.file.datanodeChain = some 1 ∧
    (after bothShort longCall).log.flatten.take 4 = [7, 8, 2, 1] := by
  decide +kernel

theorem appends_in_order_three_writes : (after bothShort longCall).log.flatten.take 4 = [7, 8, 2, 1] ∧
    (after bothShort longCall).file.Contains ([] ++ (after bothShort longCall).log.flatten) := by
  obtain ⟨firstRuns, shortRuns, longRuns, free, last, size, last', size', chain, chain', logged⟩ := threeCalls_run
  have one := (Machine.Reaches.refl (M := machine Bool File.AtTail) twoAppenders).snoc (i := firstCall)
    ⟨by simp [firstCall], ⟨by simp [firstCall, Datanodes.blocksOf], by simp [firstCall, Datanodes.blocksOf]⟩, rfl⟩
    (step_after firstRuns)
  have two := one.snoc (i := shortCall) ⟨by simp [shortCall], ⟨by simp [shortCall, Datanodes.blocksOf],
    by simp [shortCall, Datanodes.blocksOf]⟩, by rw [File.AtTail, size, chain]; exact last⟩ (step_after shortRuns)
  have fresh : bothShort.file.datanode.Fresh longCall.grants := by
    refine ⟨fun a member => ?_, by decide⟩
    obtain rfl : a = 2 := List.mem_singleton.mp member
    exact Option.isNone_iff_eq_none.mp free
  have three := two.snoc (i := longCall) ⟨longCall_nonempty, fresh, by
    change File.AtTail bothShort.file (bothShort.description false)
    rw [File.AtTail, size', chain']
    exact last'⟩ (step_after longRuns)
  exact ⟨logged, appends_in_order twoAppenders_opened three⟩

/-- The second descriptor still has the first datanode for the last one. -/
theorem appends_overwritten :
    ¬ ∀ (start s : Appenders Bool) (content : List UInt8), start.Opened content →
      (machine Bool fun _ _ => True).Reaches start s → s.file.Contains (content ++ s.log.flatten) := by
  intro always
  obtain ⟨longRuns, shortRuns, chain, inFile, overwritten, logged⟩ := bothCalls_run
  have first := (Machine.Reaches.refl (M := machine Bool fun _ _ => True) twoAppenders).snoc
    ⟨longCall_nonempty, longCall_fresh, trivial⟩ (step_after longRuns)
  have second := first.snoc (i := shortCall) ⟨by simp [shortCall], ⟨by simp [shortCall, Datanodes.blocksOf],
    by simp [shortCall, Datanodes.blocksOf]⟩, trivial⟩ (step_after shortRuns)
  have contains := always _ _ _ twoAppenders_opened second
  obtain ⟨node, here, byte⟩ := Option.bind_eq_some_iff.mp overwritten
  have expected := contains.getElem? (i := 1) chain here inFile (by decide)
  rw [byte, List.nil_append, logged] at expected
  exact absurd expected (by decide)

end TwoDescriptors
end Appenders
end Kerosene.Ramfs
