import Kerosene.Ramfs.PipePermits

/-!
# Pipes over runs
-/

namespace Kerosene.Ramfs.Pipe
open Lib
variable {π : Type} {s : Pipe π} {p q : π} {name other : SemaphoreName} {op : PipeOp}
variable {phase onward line : Phase} {unread : List UInt8} {nodes : List Addr} {lost : Nat}

theorem total_sub_one_le (s : Pipe π) (op : PipeOp) : s.totalOf op - 1 ≤ (s.semaphore op.takes).count := by
  rw [totalOf]
  split_ifs <;> omega

variable [DecidableEq π]

/-! ## The invariant -/

section Fifo
variable [Fintype π]

structure Fifo (s : Pipe π) (nodes : List Addr) (unread : List UInt8) : Prop extends Calm s where
  stores : s.data.Stores nodes unread
  log : s.taken = s.handed ++ unread
  size : s.size = unread.length
  bytes : s.permits .bytesAvailable = unread.length
  space : s.permits .spaceAvailable + unread.length = ramfsPipeSize

/-- What the processes, the logs and the permits say, whatever the datanodes hold. -/
structure Counts (s : Pipe π) (unread : List UInt8) (lost : Nat) : Prop extends Calm s where
  log : s.taken = s.handed ++ unread
  size : s.size = unread.length
  bytes : s.permits .bytesAvailable = unread.length
  space : s.permits .spaceAvailable + unread.length + lost = ramfsPipeSize

omit [DecidableEq π] in
theorem Fifo.counts (fifo : s.Fifo nodes unread) : s.Counts unread 0 := ⟨fifo.toCalm, fifo.log, fifo.size, fifo.bytes, fifo.space⟩

omit [DecidableEq π] in
theorem Counts.fifo (counts : s.Counts unread 0) (stores : s.data.Stores nodes unread) : s.Fifo nodes unread :=
  ⟨counts.toCalm, stores, counts.log, counts.size, counts.bytes, counts.space⟩

omit [DecidableEq π] in
theorem Counts.move {s' : Pipe π} (counts : s.Counts unread lost) (calm : s'.Calm) (taken : s'.taken = s.taken)
    (handed : s'.handed = s.handed) (size : s'.size = s.size)
    (permits : ∀ name, name ≠ .lock → s'.permits name = s.permits name) : s'.Counts unread lost := by
  refine ⟨calm, by rw [taken, handed]; exact counts.log, by rw [size]; exact counts.size, ?_, ?_⟩
  · rw [permits _ (by simp)]
    exact counts.bytes
  · rw [permits _ (by simp)]
    exact counts.space

omit [Fintype π] in
theorem acquire_frame (s : Pipe π) (name : SemaphoreName) (p : π) (onward line : Phase) :
    (s.acquire name p 1 onward line).data = s.data ∧ (s.acquire name p 1 onward line).taken = s.taken ∧
      (s.acquire name p 1 onward line).handed = s.handed ∧ (s.acquire name p 1 onward line).size = s.size := by
  rcases acquire_cases s name p onward line with ⟨-, done⟩ | done <;> rw [done] <;> cases name <;> exact ⟨rfl, rfl, rfl, rfl⟩

omit [Fintype π] in
theorem release_frame (s : Pipe π) (name : SemaphoreName) (n : Nat) :
    (s.release name n).data = s.data ∧ (s.release name n).taken = s.taken ∧ (s.release name n).handed = s.handed ∧
      (s.release name n).size = s.size := by
  cases name <;> exact ⟨rfl, rfl, rfl, rfl⟩

theorem Counts.acquire (counts : s.Counts unread lost) (free : awaits (s.phase p) = none) (onwardSteady : Steady onward)
    (lineSteady : Steady line) (waits : awaits line = some name)
    (taken : ∀ other, other ≠ .lock → holds other onward = holds other (s.phase p) + if name = other then 1 else 0)
    (stays : ∀ other, other ≠ .lock → holds other line = holds other (s.phase p)) :
    (s.acquire name p 1 onward line).Counts unread lost := by
  obtain ⟨-, writes, reads, size⟩ := acquire_frame s name p onward line
  exact counts.move (counts.toCalm.acquire free onwardSteady lineSteady waits) writes reads size fun other pipe =>
    permits_acquire (taken other pipe) (stays other pipe)

theorem Counts.releaseLock (counts : s.Counts unread lost) (n : Nat) : (s.release .lock n).Counts unread lost := by
  obtain ⟨-, writes, reads, size⟩ := release_frame s .lock n
  refine counts.move (counts.toCalm.release .lock n).1 writes reads size fun other pipe => ?_
  rw [permits_release (counts.line .lock) counts.steady pipe, if_neg (Ne.symm pipe), Nat.add_zero]

theorem Counts.setPhase (counts : s.Counts unread lost) (free : awaits (s.phase p) = none) (steady : Steady phase)
    (same : ∀ other, other ≠ .lock → holds other phase = holds other (s.phase p)) :
    (s.setPhase p phase).Counts unread lost := by
  refine counts.move (counts.toCalm.setPhase free steady) rfl rfl rfl fun other pipe => ?_
  have change := held_setPhase s p phase other
  rw [permits, permits, semaphore_setPhase]
  have := same other pipe
  omega

theorem Counts.call (counts : s.Counts unread lost) (here : s.phase p = .idle) (op : PipeOp) :
    ∃ s', s.call p op = some s' ∧ s'.Counts unread lost ∧ s'.data = s.data := by
  refine ⟨s.acquire .lock p 1 (.entered op) (.awaitsEntry op), by rw [Pipe.call, here], ?_, (acquire_frame ..).1⟩
  refine counts.acquire (by rw [here]; rfl) trivial trivial rfl (fun other pipe => ?_) fun other pipe => ?_
  · rw [here, if_neg (Ne.symm pipe)]
    rfl
  · rw [here]
    rfl

theorem Counts.run (counts : s.Counts unread lost) (runs : (s.phase p).runs) (outside : ∀ op, s.phase p ≠ .locked op)
    (grants : List (Datanodes.Grant Block)) : ∃ s', s.run p grants = some s' ∧ s'.Counts unread lost ∧ s'.data = s.data := by
  cases here : s.phase p with
  | idle | awaitsEntry op | awaitsFirst op | awaitsLock op | awaitsBulk op total =>
      rw [here] at runs
      cases runs
  | copies op total =>
      have steady := counts.steady p
      rw [here] at steady
      cases steady
  | locked op => exact absurd here (outside op)
  | entered op =>
      by_cases empty : op.size = 0
      · refine ⟨s.setPhase p .returns, by rw [Pipe.run, here]; simp only [empty, if_true], ?_, rfl⟩
        exact counts.setPhase (by rw [here]; rfl) trivial fun other pipe => by rw [here]; rfl
      · have kept : (s.release .lock 1).phase p = .entered op := by
          rw [(counts.toCalm.release .lock 1).2 p (by rw [here]; rfl), here]
        refine ⟨(s.release .lock 1).acquire op.takes p 1 (.granted op) (.awaitsFirst op),
          by rw [Pipe.run, here]; simp only [empty, if_false], ?_, (acquire_frame ..).1⟩
        refine (counts.releaseLock 1).acquire (by rw [kept]; rfl) empty empty rfl (fun other pipe => ?_) fun other pipe => ?_
        · rw [kept]
          simp [holds]
        · rw [kept]
          rfl
  | granted op =>
      have sized : op.size ≠ 0 := by
        have steady := counts.steady p
        rw [here] at steady
        exact steady
      refine ⟨_, by rw [Pipe.run, here], ?_, (acquire_frame ..).1⟩
      refine counts.acquire (by rw [here]; rfl) sized sized rfl (fun other pipe => ?_) fun other pipe => ?_
      · rw [here, if_neg (Ne.symm pipe)]
        rfl
      · rw [here]
        rfl
  | returns =>
      have kept : (s.release .lock 1).phase p = .returns := by
        rw [(counts.toCalm.release .lock 1).2 p (by rw [here]; rfl), here]
      refine ⟨(s.release .lock 1).setPhase p .idle, by rw [Pipe.run, here], ?_, rfl⟩
      exact (counts.releaseLock 1).setPhase (by rw [kept]; rfl) trivial fun other pipe => by rw [kept]; rfl

/-! ## Copying -/

omit [Fintype π] in
theorem Calm.finish (calm : s.Calm) (here : s.phase p = .locked op) (name : SemaphoreName) (n : Nat) :
    ((s.release name n).setPhase p .returns).Calm ∧ (s.release name n).phase p = .locked op := by
  obtain ⟨calm', kept⟩ := calm.release name n
  have same : (s.release name n).phase p = .locked op := by rw [kept p (by rw [here]; rfl), here]
  exact ⟨calm'.setPhase (by rw [same]; rfl) trivial, same⟩

theorem permits_finish {o : SemaphoreName} (calm : s.Calm) (here : s.phase p = .locked op) (name : SemaphoreName) (n : Nat)
    (pipe : o ≠ .lock) :
    ((s.release name n).setPhase p .returns).permits o + (if op.takes = o then 1 else 0) =
      s.permits o + if name = o then n else 0 := by
  have change := held_setPhase (s.release name n) p .returns o
  rw [(calm.finish here name n).2] at change
  rw [← permits_release (calm.line name) calm.steady pipe n, permits, permits, semaphore_setPhase]
  have holdsLocked : holds o (.locked op) = if op.takes = o then 1 else 0 := rfl
  have holdsReturns : holds o .returns = 0 := rfl
  omega

/-- A reader or writer in front of its copy loop, with `total` permits. -/
structure Copies (s : Pipe π) (p : π) (op : PipeOp) (total : Nat) (nodes : List Addr) (unread : List UInt8) : Prop
    extends Calm s where
  here : s.phase p = .locked op
  stores : s.data.Stores nodes unread
  log : s.taken = s.handed ++ unread
  size : s.size = unread.length
  positive : 0 < total
  small : total ≤ op.size
  bytes : s.permits .bytesAvailable + (if op.takes = .bytesAvailable then total - 1 else 0) = unread.length
  space : s.permits .spaceAvailable + (if op.takes = .spaceAvailable then total - 1 else 0) + unread.length = ramfsPipeSize

/-- The same of the processes, the logs and the permits. -/
structure Copying (s : Pipe π) (p : π) (op : PipeOp) (total : Nat) (unread : List UInt8) (lost : Nat) : Prop extends Calm s where
  here : s.phase p = .locked op
  log : s.taken = s.handed ++ unread
  size : s.size = unread.length
  positive : 0 < total
  small : total ≤ op.size
  bytes : s.permits .bytesAvailable + (if op.takes = .bytesAvailable then total - 1 else 0) = unread.length
  space : s.permits .spaceAvailable + (if op.takes = .spaceAvailable then total - 1 else 0) + unread.length + lost = ramfsPipeSize

omit [DecidableEq π] in
theorem Copies.copying {total : Nat} (ready : s.Copies p op total nodes unread) : s.Copying p op total unread 0 :=
  ⟨ready.toCalm, ready.here, ready.log, ready.size, ready.positive, ready.small, ready.bytes, ready.space⟩

omit [DecidableEq π] in
theorem Copying.held_pos {total : Nat} (ready : s.Copying p op total unread lost) : 1 ≤ s.permits op.takes := by
  have atLeast := held_le s p op.takes
  rw [ready.here, show holds op.takes (.locked op) = 1 from if_pos rfl] at atLeast
  rw [permits]
  omega

omit [DecidableEq π] in
theorem Copying.short {size total : Nat} (ready : s.Copying p (.read size) total unread lost) : total ≤ unread.length := by
  have one : 1 ≤ s.permits .bytesAvailable := ready.held_pos
  have bytes : s.permits .bytesAvailable + (total - 1) = unread.length := ready.bytes
  omega

theorem Copying.read {size total : Nat} {data : PipeData} (ready : s.Copying p (.read size) total unread lost)
    (loop : s.data.readLoop total total [] = some (data, unread.take total)) (grants : List (Datanodes.Grant Block)) :
    ∃ s', s.copy p (.read size) total grants = some s' ∧ s'.Counts (unread.drop total) lost ∧ s'.data = data := by
  have one : 1 ≤ s.permits .bytesAvailable := ready.held_pos
  have bytes : s.permits .bytesAvailable + (total - 1) = unread.length := ready.bytes
  have space : s.permits .spaceAvailable + unread.length + lost = ramfsPipeSize := ready.space
  have positive := ready.positive
  have short := ready.short
  have length : (unread.take total).length = total := by rw [List.length_take, Nat.min_eq_left short]
  generalize made : ({ s with data := data, size := s.size - total, handed := s.handed ++ unread.take total } : Pipe π) = t
  have calm : t.Calm := by subst made; exact ⟨fun name => (ready.line name).congr (by cases name <;> rfl) fun _ _ => rfl, ready.steady⟩
  have here : t.phase p = .locked (.read size) := by subst made; exact ready.here
  have same : ∀ name, t.permits name = s.permits name := by subst made; intro name; cases name <;> rfl
  refine ⟨(t.release .spaceAvailable total).setPhase p .returns, ?_, ⟨(calm.finish here _ _).1, ?_, ?_, ?_, ?_⟩, ?_⟩
  · subst made
    simp only [copy, copyRead, loop, length, Option.bind_eq_bind, Option.bind_some]
    rfl
  · subst made
    change s.taken = s.handed ++ unread.take total ++ unread.drop total
    rw [List.append_assoc, List.take_append_drop]
    exact ready.log
  · subst made
    change s.size - total = (unread.drop total).length
    rw [ready.size, List.length_drop]
  · have permits := permits_finish calm here .spaceAvailable total (o := .bytesAvailable) (by simp)
    rw [same] at permits
    simp only [PipeOp.takes, if_true, reduceCtorEq, if_false] at permits
    rw [List.length_drop]
    omega
  · have permits := permits_finish calm here .spaceAvailable total (o := .spaceAvailable) (by simp)
    rw [same] at permits
    simp only [PipeOp.takes, if_true, reduceCtorEq, if_false] at permits
    rw [List.length_drop]
    omega
  · subst made
    rfl

theorem Copying.write {buffer written rest : List UInt8} {total : Nat} {grants : List (Datanodes.Grant Block)} {data : PipeData}
    (ready : s.Copying p (.write buffer) total unread lost)
    (loop : s.data.writeLoop (total + 1) total (buffer.take total) grants = some (data, rest))
    (split : buffer.take total = written ++ rest) :
    ∃ s', s.copy p (.write buffer) total grants = some s' ∧ s'.Counts (unread ++ written) (lost + rest.length) ∧ s'.data = data := by
  have one : 1 ≤ s.permits .spaceAvailable := ready.held_pos
  have bytes : s.permits .bytesAvailable = unread.length := ready.bytes
  have space : s.permits .spaceAvailable + (total - 1) + unread.length + lost = ramfsPipeSize := ready.space
  have positive := ready.positive
  have small : total ≤ buffer.length := ready.small
  have length := congrArg List.length split
  rw [List.length_take, Nat.min_eq_left small, List.length_append] at length
  have actual : total - rest.length = written.length := by omega
  have front : buffer.take written.length = written := by
    have taken := congrArg (List.take written.length) split
    rwa [List.take_take, Nat.min_eq_left (by omega), List.take_left] at taken
  generalize made : ({ s with data := data, size := s.size + written.length, taken := s.taken ++ written } : Pipe π) = t
  have calm : t.Calm := by subst made; exact ⟨fun name => (ready.line name).congr (by cases name <;> rfl) fun _ _ => rfl, ready.steady⟩
  have here : t.phase p = .locked (.write buffer) := by subst made; exact ready.here
  have same : ∀ name, t.permits name = s.permits name := by subst made; intro name; cases name <;> rfl
  refine ⟨(t.release .bytesAvailable written.length).setPhase p .returns, ?_, ⟨(calm.finish here _ _).1, ?_, ?_, ?_, ?_⟩, ?_⟩
  · subst made
    simp only [copy, copyWrite, loop, actual, front, Option.bind_eq_bind, Option.bind_some]
    rfl
  · subst made
    change s.taken ++ written = s.handed ++ (unread ++ written)
    rw [ready.log, List.append_assoc]
  · subst made
    change s.size + written.length = (unread ++ written).length
    rw [ready.size, List.length_append]
  · have permits := permits_finish calm here .bytesAvailable written.length (o := .bytesAvailable) (by simp)
    rw [same] at permits
    simp only [PipeOp.takes, if_true, reduceCtorEq, if_false] at permits
    rw [List.length_append]
    omega
  · have permits := permits_finish calm here .bytesAvailable written.length (o := .spaceAvailable) (by simp)
    rw [same] at permits
    simp only [PipeOp.takes, if_true, reduceCtorEq, if_false] at permits
    rw [List.length_append]
    omega
  · subst made
    rfl

theorem copy_read {size total : Nat} (ready : s.Copies p (.read size) total nodes unread)
    (grants : List (Datanodes.Grant Block)) :
    ∃ s' nodes', s.copy p (.read size) total grants = some s' ∧ s'.Fifo nodes' (unread.drop total) := by
  obtain ⟨data, nodes', loop, stored⟩ := PipeData.readLoop_spec [] ready.stores ready.copying.short le_rfl
  rw [List.nil_append] at loop
  obtain ⟨s', done, counts, same⟩ := ready.copying.read loop grants
  exact ⟨s', nodes', done, counts.fifo (same ▸ stored)⟩

theorem copy_write {buffer : List UInt8} {total : Nat} {grants : List (Datanodes.Grant Block)}
    (ready : s.Copies p (.write buffer) total nodes unread) (granted : s.Granted grants) :
    ∃ s' nodes', s.copy p (.write buffer) total grants = some s' ∧ s'.Fifo nodes' (unread ++ buffer.take total) := by
  have space : s.permits .spaceAvailable + (total - 1) + unread.length = ramfsPipeSize := ready.space
  have small : total ≤ buffer.length := ready.small
  have pipeSize : ramfsPipeSize = 2048 := rfl
  have length : (buffer.take total).length = total := by rw [List.length_take, Nat.min_eq_left small]
  have tail := ready.stores.tail
  have enough : 4 < grants.length := granted.enough
  obtain ⟨data, nodes', loop, stored⟩ := PipeData.writeLoop_spec (x := buffer.take total) (k := total + 1)
    ready.stores ⟨granted.fresh, granted.apart⟩ (by omega) (by omega)
  rw [length] at loop
  obtain ⟨s', done, counts, same⟩ := ready.copying.write loop (List.append_nil _).symm
  exact ⟨s', nodes', done, counts.fifo (same ▸ stored)⟩

omit [DecidableEq π] in
theorem Counts.positive (counts : s.Counts unread lost) (here : s.phase p = .locked op) : op.size ≠ 0 := by
  have steady := counts.steady p
  rw [here] at steady
  exact steady

omit [DecidableEq π] in
theorem total_pos (counts : s.Counts unread lost) (here : s.phase p = .locked op) :
    0 < s.totalOf op ∧ s.totalOf op ≤ op.size := by
  have size := counts.positive here
  rw [totalOf]
  split_ifs with small <;> omega

-- the state in front of the copy loop
def bulk (s : Pipe π) (op : PipeOp) (total : Nat) : Pipe π :=
  s.setSemaphore op.takes ⟨(s.semaphore op.takes).count - (total - 1), (s.semaphore op.takes).waiting⟩

omit [Fintype π] [DecidableEq π] in
theorem bulk_frame (s : Pipe π) (op : PipeOp) (total : Nat) : (s.bulk op total).data = s.data ∧ (s.bulk op total).taken = s.taken ∧
    (s.bulk op total).handed = s.handed ∧ (s.bulk op total).size = s.size := by
  cases op <;> exact ⟨rfl, rfl, rfl, rfl⟩

omit [DecidableEq π] in
theorem copying_bulk (counts : s.Counts unread lost) (here : s.phase p = .locked op) :
    (s.bulk op (s.totalOf op)).Copying p op (s.totalOf op) unread lost := by
  have less := total_sub_one_le s op
  obtain ⟨positive, small⟩ := total_pos counts here
  have lines : ∀ name, (s.bulk op (s.totalOf op)).Line name := by
    intro name
    by_cases same : name = op.takes
    · subst same
      have old := counts.line op.takes
      refine ⟨?_, ?_, ?_⟩ <;> simp only [bulk, semaphore_setSemaphore, phase_setSemaphore]
      · exact old.one
      · exact old.waits
      · exact old.nodup
    · exact (counts.line name).congr (semaphore_setSemaphore_ne same ..) fun q _ => by rw [bulk, phase_setSemaphore]
  have moved : ∀ name, (s.bulk op (s.totalOf op)).permits name + (if op.takes = name then s.totalOf op - 1 else 0) =
      s.permits name := by
    intro name
    have held : (s.bulk op (s.totalOf op)).held name = s.held name := by rw [held, held, bulk, phase_setSemaphore]
    rw [permits, permits, held]
    by_cases same : op.takes = name
    · subst same
      rw [bulk, semaphore_setSemaphore, if_pos rfl]
      dsimp only
      omega
    · rw [bulk, semaphore_setSemaphore_ne (Ne.symm same), if_neg same, Nat.add_zero]
  obtain ⟨-, taken, handed, size⟩ := bulk_frame s op (s.totalOf op)
  refine ⟨⟨lines, fun q => ?_⟩, ?_, ?_, ?_, positive, small, ?_, ?_⟩
  · rw [bulk, phase_setSemaphore]
    exact counts.steady q
  · rw [bulk, phase_setSemaphore]
    exact here
  · rw [taken, handed]
    exact counts.log
  · rw [size]
    exact counts.size
  · rw [moved]
    exact counts.bytes
  · rw [moved]
    exact counts.space

omit [DecidableEq π] in
theorem copies_bulk (fifo : s.Fifo nodes unread) (here : s.phase p = .locked op) :
    (s.bulk op (s.totalOf op)).Copies p op (s.totalOf op) nodes unread := by
  have ready := copying_bulk fifo.counts here
  refine ⟨ready.toCalm, ready.here, ?_, ready.log, ready.size, ready.positive, ready.small, ready.bytes, ready.space⟩
  rw [(bulk_frame s op _).1]
  exact fifo.stores

omit [Fintype π] in
theorem run_locked (here : s.phase p = .locked op) (positive : 0 < s.totalOf op) (grants : List (Datanodes.Grant Block)) :
    s.run p grants = (s.bulk op (s.totalOf op)).copy p op (s.totalOf op) grants := by
  have less := total_sub_one_le s op
  simp only [Pipe.run, here, Semaphore.acquire, less, if_true]
  split_ifs with more
  · rfl
  · -- one byte only: there is no bulk acquire
    have one : s.totalOf op = 1 := by omega
    have same : s.bulk op 1 = s := by
      cases op <;> rfl
    rw [one, same]

theorem fifo_run {grants : List (Datanodes.Grant Block)} (fifo : s.Fifo nodes unread) (runs : (s.phase p).runs)
    (granted : s.Granted grants) :
    ∃ s' nodes' unread', s.run p grants = some s' ∧ s'.Fifo nodes' unread' := by
  by_cases outside : ∀ op, s.phase p ≠ .locked op
  · obtain ⟨s', done, counts, same⟩ := fifo.counts.run runs outside grants
    exact ⟨s', nodes, unread, done, counts.fifo (same ▸ fifo.stores)⟩
  · obtain ⟨op, here⟩ := not_forall_not.mp outside
    have ready := copies_bulk fifo here
    rw [run_locked here (total_pos fifo.counts here).1]
    cases op with
    | read size =>
        obtain ⟨s', nodes', done, fifo'⟩ := copy_read ready grants
        exact ⟨s', nodes', _, done, fifo'⟩
    | write buffer =>
        obtain ⟨s', nodes', done, fifo'⟩ := copy_write ready ⟨granted.enough, granted.fresh, granted.apart⟩
        exact ⟨s', nodes', _, done, fifo'⟩

theorem fifo_step {input : PipeInput π} (fifo : s.Fifo nodes unread) (legal : s.Legal input) :
    ∃ s' nodes' unread', s.step input = some s' ∧ s'.Fifo nodes' unread' := by
  cases input with
  | call p op =>
      obtain ⟨s', done, counts, same⟩ := fifo.counts.call legal op
      exact ⟨s', nodes, unread, done, counts.fifo (same ▸ fifo.stores)⟩
  | run p grants => exact fifo_run fifo legal.1 legal.2

/-! ## Whole runs -/

/-- A pipe as `ramfs_create_special_node` makes it. -/
def newPipe (s : Datanodes Block) (a : Addr) (data : Block) : Pipe π where
  data := ⟨s.put a ⟨none, data⟩, some a, some a, 0, 0⟩
  size := 0
  lock := ⟨1, []⟩
  bytesAvailable := ⟨0, []⟩
  spaceAvailable := ⟨ramfsPipeSize, []⟩
  phase _ := .idle
  taken := []
  handed := []

omit [DecidableEq π] in
theorem newPipe_fifo (s : Datanodes Block) (a : Addr) (data : Block) : (newPipe s a data : Pipe π).Fifo [a] [] := by
  have here : s.put a ⟨none, data⟩ a = some ⟨none, data⟩ := Function.update_self ..
  have none : ∀ name, (newPipe s a data : Pipe π).held name = 0 := fun name => Finset.sum_eq_zero fun _ _ => rfl
  have line : ∀ name, (newPipe s a data : Pipe π).Line name := by
    intro name
    have empty : ((newPipe s a data : Pipe π).semaphore name).waiting = [] := by cases name <;> rfl
    refine ⟨?_, ?_, ?_⟩ <;> rw [empty] <;> simp
  refine ⟨⟨line, fun _ => trivial⟩, ⟨Datanodes.chain_cons.mpr ⟨_, rfl, here, rfl, by simp⟩, rfl, by simp,
    Nat.zero_lt_succ 511, Nat.zero_lt_succ 511, [], data.toList, ?_, rfl, data.length_toList⟩, rfl, rfl, ?_, ?_⟩
  · change (s.put a ⟨Option.none, data⟩).bytes [a] = _
    rw [Datanodes.bytes_cons, Datanodes.row_eq here]
    simp
  · rw [permits, none]
    rfl
  · rw [permits, none]
    rfl

theorem fifo_of_reaches {start : Pipe π} (fifo : start.Fifo nodes unread) (run : (machine π).Reaches start s) :
    ∃ nodes unread, s.Fifo nodes unread := by
  refine run.invariant (I := fun s => ∃ nodes unread, s.Fifo nodes unread) ?_ ⟨nodes, unread, fifo⟩
  rintro s input s' ⟨nodes, unread, fifo⟩ legal step
  obtain ⟨s'', nodes', unread', done, fifo'⟩ := fifo_step fifo legal
  have same : some s'' = some s' := done.symm.trans step
  cases same
  exact ⟨nodes', unread', fifo'⟩

-- granted its first permit, and its copy loop has not run
def hasFirst (name : SemaphoreName) : Phase → Bool
  | .granted op | .awaitsLock op | .locked op | .awaitsBulk op _ | .copies op _ => op.takes = name
  | _ => false

omit [DecidableEq π] in
theorem held_eq_card (steady : ∀ q, Steady (s.phase q)) (name : SemaphoreName) :
    s.held name = (Finset.univ.filter fun q => hasFirst name (s.phase q)).card := by
  rw [held, Finset.card_filter]
  refine Finset.sum_congr rfl fun q _ => ?_
  have steady := steady q
  cases here : s.phase q with
  | awaitsBulk op total | copies op total =>
      rw [here] at steady
      cases steady
  | granted op | awaitsLock op | locked op => simp [holds, hasFirst]
  | idle | awaitsEntry op | entered op | awaitsFirst op | returns => rfl

/-- In every state a run reaches, the bytes handed out are a prefix of those taken in, no bulk
acquire blocks, and free permits and first permits add up to the unread bytes and the free space. -/
theorem pipe_is_fifo (store : Datanodes Block) (a : Addr) (data : Block) (s : Pipe π)
    (run : (machine π).Reaches (newPipe store a data) s) :
    s.handed <+: s.taken ∧
    (∀ p op, s.phase p = .locked op → ((s.semaphore op.takes).acquire p (s.totalOf op - 1)).1 = true) ∧
    (∀ p op total, s.phase p ≠ .awaitsBulk op total) ∧
    (∃ nodes unread, s.data.Stores nodes unread ∧ s.taken = s.handed ++ unread ∧
      unread.length = s.bytesAvailable.count +
        (Finset.univ.filter fun p => hasFirst .bytesAvailable (s.phase p)).card ∧
      unread.length ≤ ramfsPipeSize ∧
      ramfsPipeSize - unread.length = s.spaceAvailable.count +
        (Finset.univ.filter fun p => hasFirst .spaceAvailable (s.phase p)).card) ∧
    ∀ input, s.Legal input → ∃ s', s.step input = some s' := by
  obtain ⟨nodes, unread, fifo⟩ := fifo_of_reaches (newPipe_fifo store a data) run
  refine ⟨⟨unread, fifo.log.symm⟩, fun p op _ => ?_, fun p op total here => ?_, ⟨nodes, unread, fifo.stores, fifo.log, ?_⟩,
    fun input legal => ?_⟩
  · rw [Semaphore.acquire, if_pos (total_sub_one_le s op)]
  · have steady := fifo.steady p
    rw [here] at steady
    cases steady
  · have bytes := fifo.bytes
    have space := fifo.space
    rw [permits, held_eq_card fifo.steady] at bytes space
    refine ⟨bytes.symm, by omega, ?_⟩
    change _ = (s.semaphore .spaceAvailable).count + _
    omega
  · obtain ⟨s', _, _, done, -⟩ := fifo_step fifo legal
    exact ⟨s', done⟩

def after (s : Pipe π) (input : PipeInput π) : Pipe π := (s.step input).getD s

theorem reaches_after {store : Datanodes Block} {a : Addr} {data : Block} {input : PipeInput π}
    (run : (machine π).Reaches (newPipe store a data) s) (legal : s.Legal input) :
    (machine π).Reaches (newPipe store a data) (s.after input) := by
  obtain ⟨nodes, unread, fifo⟩ := fifo_of_reaches (newPipe_fifo store a data) run
  obtain ⟨s', _, _, done, -⟩ := fifo_step fifo legal
  rw [after, done]
  exact run.snoc legal done

end Fifo

def zeroed : Block := Vector.replicate 512 0

def spare : List (Datanodes.Grant Block) := [101, 102, 103, 104, 105].map fun a => some (a, ⟨none, zeroed⟩)

omit [DecidableEq π] in
theorem granted_spare (free : [101, 102, 103, 104, 105].all fun a => (s.data.datanode a).isNone) : s.Granted spare := by
  refine ⟨by decide, fun grant member => ?_, by decide⟩
  obtain ⟨a, inside, rfl⟩ := List.mem_map.mp member
  exact ⟨a, _, rfl, Option.isNone_iff_eq_none.mp (List.all_eq_true.mp free a inside)⟩

instance two_neZero : NeZero 2 := ⟨by decide⟩

-- process 0 writes three bytes, and process 1 reads two of them
def emptyPipe : Pipe (Fin 2) := newPipe (fun _ => none) 100 zeroed
def writerIn : Pipe (Fin 2) := emptyPipe.after (.call 0 (.write [1, 2, 3]))
def writerGranted : Pipe (Fin 2) := writerIn.after (.run 0 spare)
def writerLocked : Pipe (Fin 2) := writerGranted.after (.run 0 spare)
def threeBytes : Pipe (Fin 2) := writerLocked.after (.run 0 spare)
def writerOut : Pipe (Fin 2) := threeBytes.after (.run 0 spare)
def readerIn : Pipe (Fin 2) := writerOut.after (.call 1 (.read 2))
def readerGranted : Pipe (Fin 2) := readerIn.after (.run 1 spare)
def readerLocked : Pipe (Fin 2) := readerGranted.after (.run 1 spare)
def twoRead : Pipe (Fin 2) := readerLocked.after (.run 1 spare)

theorem threeBytes_reached : (machine (Fin 2)).Reaches emptyPipe threeBytes := by
  have entered : (machine (Fin 2)).Reaches emptyPipe writerIn := reaches_after (.refl _) rfl
  have granted : (machine (Fin 2)).Reaches emptyPipe writerGranted :=
    reaches_after entered ⟨by decide, granted_spare (by decide)⟩
  have locked : (machine (Fin 2)).Reaches emptyPipe writerLocked :=
    reaches_after granted ⟨by decide, granted_spare (by decide)⟩
  exact reaches_after locked ⟨by decide, granted_spare (by decide)⟩

theorem twoRead_reached : (machine (Fin 2)).Reaches emptyPipe twoRead := by
  have out : (machine (Fin 2)).Reaches emptyPipe writerOut :=
    reaches_after threeBytes_reached ⟨by decide +kernel, granted_spare (by decide +kernel)⟩
  have entered : (machine (Fin 2)).Reaches emptyPipe readerIn := reaches_after out rfl
  have granted : (machine (Fin 2)).Reaches emptyPipe readerGranted :=
    reaches_after entered ⟨by decide +kernel, granted_spare (by decide +kernel)⟩
  have locked : (machine (Fin 2)).Reaches emptyPipe readerLocked :=
    reaches_after granted ⟨by decide +kernel, granted_spare (by decide +kernel)⟩
  exact reaches_after locked ⟨by decide +kernel, granted_spare (by decide +kernel)⟩

theorem pipe_is_fifo_two_read :
    twoRead.taken = [1, 2, 3] ∧ twoRead.handed = [1, 2] ∧ twoRead.bytesAvailable.count = 1 ∧ twoRead.handed <+: twoRead.taken :=
  ⟨by decide +kernel, by decide +kernel, by decide +kernel, (pipe_is_fifo (fun _ => none) 100 zeroed twoRead twoRead_reached).1⟩

end Kerosene.Ramfs.Pipe
