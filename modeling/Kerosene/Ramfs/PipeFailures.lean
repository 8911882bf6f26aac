import Kerosene.Ramfs.PipeRun

/-!
# Pipes when datanodes run out

A write that gets no datanode stops at the end of the last one. It reports the bytes it has stored, and what it took from
`space_available` for the others is not given back.
-/

namespace Kerosene.Ramfs.Pipe
open Lib
variable {π : Type} {s s' : Pipe π} {p : π} {unread : List UInt8} {nodes : List Addr} {lost : Nat}
variable {grants : List (Datanodes.Grant Block)}

/-- A process that writes stores everything it holds permits for: what is left of the last datanode and the datanodes
granted are enough. -/
def StoresAll (s : Pipe π) (p : π) (grants : List (Datanodes.Grant Block)) : Prop :=
  ∀ buffer, s.phase p = .locked (.write buffer) →
    s.data.tail + s.totalOf (.write buffer) ≤ ramfsDatanodeSize * (PipeData.answered grants + 1)

/-- A process that reads leaves a byte behind while the tail is at the end of the last datanode. -/
def LeavesUnread (s : Pipe π) (p : π) : Prop :=
  ∀ size, s.phase p = .locked (.read size) → s.data.tail = ramfsDatanodeSize → s.totalOf (.read size) < s.size

variable [DecidableEq π]

-- `rmalloc` can answer null at any time
def MayFail (s : Pipe π) : PipeInput π → Prop
  | .call p _ => s.phase p = .idle
  | .run p grants => (s.phase p).runs ∧ s.data.datanode.Fresh grants

def Careful (s : Pipe π) : PipeInput π → Prop
  | .call _ _ => True
  | .run p grants => s.StoresAll p grants ∧ s.LeavesUnread p

def carefulMachine (π : Type) [DecidableEq π] : Machine (Pipe π) (PipeInput π) where
  Legal s input := s.MayFail input ∧ s.Careful input
  step := step

section Flows
variable [Fintype π]

structure Flows (s : Pipe π) (nodes : List Addr) (unread : List UInt8) (lost : Nat) : Prop extends Counts s unread lost where
  keeps : s.data.Keeps nodes unread
  stuck : s.data.tail = 512 → unread ≠ []

omit [DecidableEq π] in
theorem Fifo.flows (fifo : s.Fifo nodes unread) : s.Flows nodes unread 0 :=
  ⟨fifo.counts, fifo.stores.keeps, fun full => absurd full fifo.stores.tail.ne⟩

theorem Flows.write {buffer : List UInt8} (flows : s.Flows nodes unread lost) (here : s.phase p = .locked (.write buffer))
    (fresh : s.data.datanode.Fresh grants) :
    ∃ s' nodes' written unstored, s.run p grants = some s' ∧ s'.Flows nodes' (unread ++ written) (lost + unstored) ∧
      (unstored = 0 ↔ s.data.tail + s.totalOf (.write buffer) ≤ 512 * (PipeData.answered grants + 1)) := by
  have counts := flows.toCounts
  obtain ⟨positive, small⟩ := total_pos counts here
  have ready := copying_bulk counts here
  have data := (bulk_frame s (.write buffer) (s.totalOf (.write buffer))).1
  rw [run_locked here positive]
  generalize s.totalOf (.write buffer) = total at *
  have length : (buffer.take total).length = total := by rw [List.length_take]; exact Nat.min_eq_left small
  have tail := flows.keeps.tail
  obtain ⟨after, nodes', written, rest, loop, split, keeps, most, -⟩ :=
    PipeData.writeLoop_keeps (x := buffer.take total) (k := total + 1) flows.keeps fresh (by split_ifs <;> omega)
  rw [length, ← data] at loop
  rw [length] at most
  obtain ⟨s', done, counts', same⟩ := ready.write loop split
  have sum := congrArg List.length split
  rw [length, List.length_append] at sum
  refine ⟨s', nodes', written, rest.length, done, ⟨counts', same ▸ keeps, fun full empty => ?_⟩, ?_⟩
  · -- nothing is stored only when the tail was at the end already
    obtain ⟨old, new⟩ := List.append_eq_nil_iff.mp empty
    have nothing : written.length = 0 := by rw [new]; rfl
    exact flows.stuck (by omega) old
  · omega

theorem Flows.read {size : Nat} (flows : s.Flows nodes unread lost) (here : s.phase p = .locked (.read size))
    (leaves : s.LeavesUnread p) (grants : List (Datanodes.Grant Block)) :
    ∃ s' nodes' unread', s.run p grants = some s' ∧ s'.Flows nodes' unread' lost := by
  have counts := flows.toCounts
  have ready := copying_bulk counts here
  have data := (bulk_frame s (.read size) (s.totalOf (.read size))).1
  have stays : s.data.tail = 512 → s.totalOf (.read size) < unread.length := fun full => by
    rw [← counts.size]
    exact leaves size here full
  rw [run_locked here (total_pos counts here).1]
  have tail := flows.keeps.tail
  obtain ⟨after, nodes', loop, keeps, sameTail⟩ := PipeData.readLoop_keeps [] flows.keeps ready.short
    (by omega) le_rfl
  rw [List.nil_append, ← data] at loop
  obtain ⟨s', done, counts', same⟩ := ready.read loop grants
  refine ⟨s', nodes', _, done, counts', same ▸ keeps, fun full empty => ?_⟩
  rw [same, sameTail] at full
  have := congrArg List.length empty
  rw [List.length_drop, List.length_nil] at this
  have := stays full
  omega

theorem flows_step {input : PipeInput π} (flows : s.Flows nodes unread 0) (legal : (carefulMachine π).Legal s input) :
    ∃ s' nodes' unread', s.step input = some s' ∧ s'.Flows nodes' unread' 0 := by
  have keep : ∀ s' : Pipe π, s'.Counts unread 0 → s'.data = s.data → s'.Flows nodes unread 0 := fun s' counts same =>
    ⟨counts, same ▸ flows.keeps, same ▸ flows.stuck⟩
  cases input with
  | call p op =>
      obtain ⟨s', done, counts, same⟩ := flows.toCounts.call legal.1 op
      exact ⟨s', nodes, unread, done, keep s' counts same⟩
  | run p grants =>
      obtain ⟨⟨runs, fresh⟩, all, leaves⟩ := legal
      by_cases outside : ∀ op, s.phase p ≠ .locked op
      · obtain ⟨s', done, counts, same⟩ := flows.toCounts.run runs outside grants
        exact ⟨s', nodes, unread, done, keep s' counts same⟩
      · obtain ⟨op, here⟩ := not_forall_not.mp outside
        cases op with
        | read size => exact flows.read here leaves grants
        | write buffer =>
            obtain ⟨s', nodes', written, unstored, done, flows', whole⟩ := flows.write here fresh
            rw [whole.mpr (all buffer here)] at flows'
            exact ⟨s', nodes', _, done, flows'⟩

theorem flows_of_reaches {start : Pipe π} (flows : start.Flows nodes unread 0) (run : (carefulMachine π).Reaches start s) :
    ∃ nodes unread, s.Flows nodes unread 0 := by
  refine run.invariant (I := fun s => ∃ nodes unread, s.Flows nodes unread 0) ?_ ⟨nodes, unread, flows⟩
  rintro s input s' ⟨nodes, unread, flows⟩ legal step
  obtain ⟨s'', nodes', unread', done, flows'⟩ := flows_step flows legal
  cases (done.symm.trans step : some s'' = some s')
  exact ⟨nodes', unread', flows'⟩

/-- Free permits and those held by calls in progress. -/
def allPermits (s : Pipe π) : Nat := s.permits .bytesAvailable + s.permits .spaceAvailable

omit [DecidableEq π] in
theorem Flows.allPermits (flows : s.Flows nodes unread lost) : s.allPermits + lost = ramfsPipeSize := by
  have bytes := flows.bytes
  have space := flows.space
  rw [Pipe.allPermits]
  omega

/-- In runs whose writes store all they hold permits for, and whose reads leave a byte while the tail is at the end, no permit
is lost and the bytes keep their order; and a write keeps the number of permits just when it stores all. -/
theorem pipe_survives_failure_iff (store : Datanodes Block) (a : Addr) (data : Block) :
    (∀ s, (carefulMachine π).Reaches (newPipe store a data) s → s.allPermits = ramfsPipeSize ∧ s.handed <+: s.taken) ∧
      ∀ s, (carefulMachine π).Reaches (newPipe store a data) s → ∀ p buffer grants, s.phase p = .locked (.write buffer) →
        s.data.datanode.Fresh grants → ∃ s', s.run p grants = some s' ∧ s'.handed <+: s'.taken ∧
          (s'.allPermits = ramfsPipeSize ↔
            s.data.tail + s.totalOf (.write buffer) ≤ ramfsDatanodeSize * (PipeData.answered grants + 1)) := by
  constructor
  · intro s run
    obtain ⟨nodes, unread, flows⟩ := flows_of_reaches (newPipe_fifo store a data).flows run
    exact ⟨flows.allPermits, ⟨unread, flows.log.symm⟩⟩
  · intro s run p buffer grants here fresh
    obtain ⟨nodes, unread, flows⟩ := flows_of_reaches (newPipe_fifo store a data).flows run
    obtain ⟨s', nodes', written, unstored, done, flows', all⟩ := flows.write here fresh
    have permits := flows'.allPermits
    refine ⟨s', done, ⟨unread ++ written, flows'.log.symm⟩, ?_⟩
    rw [show ramfsDatanodeSize = 512 from rfl, ← all]
    omega

theorem reaches_careful {store : Datanodes Block} {a : Addr} {data : Block} {input : PipeInput π}
    (run : (carefulMachine π).Reaches (newPipe store a data) s) (legal : (carefulMachine π).Legal s input) :
    (carefulMachine π).Reaches (newPipe store a data) (s.after input) := by
  obtain ⟨nodes, unread, flows⟩ := flows_of_reaches (newPipe_fifo store a data).flows run
  obtain ⟨s', _, _, done, -⟩ := flows_step flows legal
  rw [after, done]
  exact run.snoc legal done

end Flows

/-! ## A write that gets no datanode -/

omit [DecidableEq π] in
theorem careful_outside (outside : ∀ op, s.phase p ≠ .locked op) : s.StoresAll p grants ∧ s.LeavesUnread p :=
  ⟨fun _ here => absurd here (outside _), fun _ here => absurd here (outside _)⟩

-- process 0 in front of its copy loop
def writerEntered (buffer : List UInt8) : Pipe (Fin 2) := emptyPipe.after (.call 0 (.write buffer))
def writerFirst (buffer : List UInt8) : Pipe (Fin 2) := (writerEntered buffer).after (.run 0 [])
def writerReady (buffer : List UInt8) : Pipe (Fin 2) := (writerFirst buffer).after (.run 0 [])

theorem fresh_nil (s : Datanodes Block) : s.Fresh [] := ⟨nofun, List.nodup_nil⟩

theorem writerEntered_phase (buffer : List UInt8) : (writerEntered buffer).phase 0 = .entered (.write buffer) := rfl

theorem writerFirst_eq (buffer : List UInt8) (sized : buffer.length ≠ 0) : writerFirst buffer =
    ((writerEntered buffer).release .lock 1).acquire .spaceAvailable 0 1 (.granted (.write buffer)) (.awaitsFirst (.write buffer)) := by
  rw [writerFirst, after]
  simp only [step, run, writerEntered_phase, PipeOp.size, sized, if_false, Option.getD_some]
  rfl

theorem writerFirst_phase (buffer : List UInt8) (sized : buffer.length ≠ 0) :
    (writerFirst buffer).phase 0 = .granted (.write buffer) := by
  rw [writerFirst_eq buffer sized]
  rfl

theorem writerReady_facts (buffer : List UInt8) (sized : buffer.length ≠ 0) :
    (writerReady buffer).phase 0 = .locked (.write buffer) ∧ (writerReady buffer).data.tail = 0 ∧
      (writerReady buffer).totalOf (.write buffer) = if buffer.length < 2048 then buffer.length else 2048 := by
  have ready : writerReady buffer = (writerFirst buffer).acquire .lock 0 1 (.locked (.write buffer)) (.awaitsLock (.write buffer)) := by
    rw [writerReady, after]
    simp only [step, run, writerFirst_phase buffer sized, Option.getD_some]
  rw [ready, writerFirst_eq buffer sized]
  exact ⟨rfl, rfl, rfl⟩

theorem writerReady_reached (buffer : List UInt8) (sized : buffer.length ≠ 0) :
    (carefulMachine (Fin 2)).Reaches emptyPipe (writerReady buffer) := by
  have entered : (carefulMachine (Fin 2)).Reaches emptyPipe (writerEntered buffer) := reaches_careful (.refl _) ⟨rfl, trivial⟩
  have first : (carefulMachine (Fin 2)).Reaches emptyPipe (writerFirst buffer) :=
    reaches_careful entered ⟨⟨rfl, fresh_nil _⟩, careful_outside nofun⟩
  refine reaches_careful first ⟨⟨?_, fresh_nil _⟩, careful_outside fun op => ?_⟩
  · rw [writerFirst_phase buffer sized]
    rfl
  · rw [writerFirst_phase buffer sized]
    exact nofun

theorem pipe_survives_failure_iff_three_bytes : ∃ s' : Pipe (Fin 2), (writerReady [1, 2, 3]).run 0 [] = some s' ∧
    s'.handed <+: s'.taken ∧ s'.allPermits = ramfsPipeSize := by
  obtain ⟨here, tail, total⟩ := writerReady_facts [1, 2, 3] (by decide)
  obtain ⟨s', done, order, all⟩ := (pipe_survives_failure_iff (fun _ => none) 100 zeroed).2 (writerReady [1, 2, 3])
    (writerReady_reached [1, 2, 3] (by decide)) 0 [1, 2, 3] [] here (fresh_nil _)
  refine ⟨s', done, order, all.mpr ?_⟩
  rw [tail, total]
  decide

/-- One byte more than a datanode holds, and no second datanode: the permit of that byte is gone. -/
theorem failed_write_loses_permit : ∃ s s' : Pipe (Fin 2), (carefulMachine (Fin 2)).Reaches emptyPipe s ∧
    s.phase 0 = .locked (.write (List.replicate 513 0)) ∧ s.run 0 [] = some s' ∧ s'.allPermits ≠ ramfsPipeSize := by
  have sized : (List.replicate 513 (0 : UInt8)).length = 513 := List.length_replicate
  obtain ⟨here, tail, total⟩ := writerReady_facts (List.replicate 513 0) (by rw [sized]; decide)
  have reached := writerReady_reached (List.replicate 513 0) (by rw [sized]; decide)
  obtain ⟨nodes, unread, flows⟩ := flows_of_reaches (newPipe_fifo (fun _ => none) 100 zeroed).flows reached
  obtain ⟨s', nodes', written, unstored, done, flows', all⟩ := flows.write here (fresh_nil _)
  have permits := flows'.allPermits
  rw [tail, total, sized] at all
  have left : unstored ≠ 0 := fun none => absurd (all.mp none) (by decide)
  exact ⟨_, s', reached, here, done, by omega⟩

end Kerosene.Ramfs.Pipe
