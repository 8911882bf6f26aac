import Kerosene.Sched.Lines

/-!
# Where each process is

Every process of the global list has one place. The abstract state is the list of processes, the
queues as lists and a place for every process; the moves of the scheduler are moves of this map.
-/

namespace Kerosene.Sched
open Lib

inductive Place (S : Type) where
  | current
  | queued (queue : QueueId S)
  | attached (child : Addr)
  deriving DecidableEq

/-- `place` is right about the queues, the running process and the processes that wait for an
attached child. The idle process runs or is ready. -/
structure Placed {S : Type} (attachedFrom : Addr → Option Addr) (idle : Addr) (listed : List Addr)
    (lines : QueueId S → List Addr) (place : Addr → Place S) (run : Option Addr) : Prop where
  queued : ∀ k p, p ∈ lines k ↔ p ∈ listed ∧ place p = .queued k
  running : ∀ p, run = some p ↔ p ∈ listed ∧ place p = .current
  waits : ∀ p ∈ listed, ∀ q, place p = .attached q ↔
    q ∈ listed ∧ place q ≠ .queued .delete ∧ attachedFrom q = some p
  closed : ∀ q ∈ listed, q ≠ idle → place q ≠ .queued .delete → ∀ p, attachedFrom q = some p → p ∈ listed
  idleListed : idle ∈ listed
  idleRuns : place idle = .current ∨ place idle = .queued .ready

section Moves
variable {S : Type} [DecidableEq S] {attachedFrom : Addr → Option Addr} {idle : Addr} {listed : List Addr}
  {lines : QueueId S → List Addr} {place : Addr → Place S} {run : Option Addr} {c p : Addr}

omit [DecidableEq S] in
theorem Placed.running_free (placed : Placed attachedFrom idle listed lines place (some c)) (k : QueueId S) :
    c ∉ lines k := by
  intro inside
  have here := ((placed.queued k c).mp inside).2
  rw [((placed.running c).mp rfl).2] at here
  cases here

theorem Placed.enqueue (placed : Placed attachedFrom idle listed lines place (some c)) {k : QueueId S}
    (notDelete : k ≠ .delete) (idleReady : c = idle → k = .ready) {l : List Addr}
    (members : ∀ r, r ∈ l ↔ r = c ∨ r ∈ lines k) :
    Placed attachedFrom idle listed (Function.update lines k l) (Function.update place c (.queued k)) none := by
  obtain ⟨cListed, cRuns⟩ := (placed.running c).mp rfl
  refine ⟨fun j r => ?_, fun r => ?_, fun r member q => ?_, fun q member other undeleted => ?_, placed.idleListed, ?_⟩
  · have := placed.queued j r
    by_cases atK : j = k <;> by_cases atC : r = c
    all_goals grind
  · have := placed.running r
    by_cases atC : r = c
    all_goals grind
  · have := placed.waits r member q
    by_cases atC : r = c <;> by_cases qC : q = c
    all_goals grind
  · refine placed.closed q member other ?_
    by_cases qC : q = c
    all_goals grind
  · have := placed.idleRuns
    by_cases atC : idle = c
    all_goals grind

theorem Placed.pick (placed : Placed attachedFrom idle listed lines place none) {l : List Addr}
    (line : lines .ready = p :: l) (fresh : p ∉ l) :
    Placed attachedFrom idle listed (Function.update lines .ready l) (Function.update place p .current) (some p) := by
  have first : p ∈ listed ∧ place p = .queued .ready := (placed.queued .ready p).mp (line ▸ List.mem_cons_self)
  refine ⟨fun j r => ?_, fun r => ?_, fun r member q => ?_, fun q member other undeleted => ?_, placed.idleListed, ?_⟩
  · have := placed.queued j r
    by_cases atReady : j = .ready <;> by_cases atP : r = p
    all_goals grind
  · have := placed.running r
    by_cases atP : r = p
    all_goals grind
  · have := placed.waits r member q
    by_cases atP : r = p <;> by_cases qP : q = p
    all_goals grind
  · refine placed.closed q member other ?_
    by_cases qP : q = p
    all_goals grind
  · have := placed.idleRuns
    by_cases atP : idle = p
    all_goals grind

theorem Placed.release (placed : Placed attachedFrom idle listed lines place run) {k : QueueId S}
    (notReady : k ≠ .ready) (notDelete : k ≠ .delete) {front back : List Addr} (line : lines k = front ++ back)
    (nodup : (front ++ back).Nodup) :
    Placed attachedFrom idle listed (Scheduler.released lines k front back)
      (fun r => if r ∈ front then .queued .ready else place r) run := by
  have inFront : ∀ r ∈ front, r ∈ listed ∧ place r = .queued k := by
    intro r member
    exact (placed.queued k r).mp (line ▸ List.mem_append_left back member)
  have inBack : ∀ r ∈ back, r ∉ front := fun r later early => (List.nodup_append'.mp nodup).2.2 early later
  refine ⟨fun j r => ?_, fun r => ?_, fun r member q => ?_, fun q member other undeleted => ?_, placed.idleListed, ?_⟩
  · have := placed.queued j r
    have := placed.queued k r
    have := inFront r
    have := inBack r
    simp only [Scheduler.released]
    by_cases atReady : j = .ready <;> by_cases atK : j = k
    all_goals grind
  · have := placed.running r
    have := inFront r
    grind
  · have := placed.waits r member q
    have := inFront r
    have := inFront q
    grind
  · refine placed.closed q member other ?_
    have := inFront q
    grind
  · have := placed.idleRuns
    have := inFront idle
    grind

theorem Placed.kill (placed : Placed attachedFrom idle listed lines place (some c)) (notIdle : c ≠ idle) {l : List Addr}
    (members : ∀ r, r ∈ l ↔ attachedFrom c = some r ∨ r ∈ lines .ready) :
    Placed attachedFrom idle listed
      (Function.update (Function.update lines .ready l) .delete (lines .delete ++ [c]))
      (Function.update (fun r => if attachedFrom c = some r then .queued .ready else place r) c (.queued .delete))
      none := by
  obtain ⟨cListed, cRuns⟩ := (placed.running c).mp rfl
  have parent : ∀ q, attachedFrom c = some q → q ∈ listed ∧ place q = .attached c := by
    intro q isParent
    have qListed := placed.closed c cListed notIdle (by simp [cRuns]) q isParent
    exact ⟨qListed, (placed.waits q qListed c).mpr ⟨cListed, by simp [cRuns], isParent⟩⟩
  refine ⟨fun j r => ?_, fun r => ?_, fun r member q => ?_, fun q member other undeleted => ?_, placed.idleListed, ?_⟩
  · have := placed.queued j r
    have := parent r
    by_cases atReady : j = .ready <;> by_cases atDelete : j = .delete <;> by_cases atC : r = c
    all_goals grind
  · have := placed.running r
    have := parent r
    by_cases atC : r = c
    all_goals grind
  · have := placed.waits r member q
    have := parent r
    have := parent q
    by_cases atC : r = c <;> by_cases qC : q = c
    all_goals grind
  · refine placed.closed q member other ?_
    have := parent q
    by_cases qC : q = c
    all_goals grind
  · have := placed.idleRuns
    have := parent idle
    grind

theorem Placed.add (placed : Placed attachedFrom idle listed lines place run) (fresh : p ∉ listed)
    (unknown : attachedFrom idle ≠ some p) :
    Placed (Function.update attachedFrom p none) idle (listed ++ [p])
      (Function.update lines .ready (lines .ready ++ [p])) (Function.update place p (.queued .ready)) run := by
  have idleListed := placed.idleListed
  have notIdle : idle ≠ p := by
    rintro rfl
    exact fresh idleListed
  refine ⟨fun j r => ?_, fun r => ?_, fun r member q => ?_, fun q member other undeleted => ?_,
    List.mem_append_left _ idleListed, ?_⟩
  · have := placed.queued j r
    by_cases atReady : j = .ready <;> by_cases atP : r = p
    all_goals grind
  · have := placed.running r
    by_cases atP : r = p
    all_goals grind
  · -- no listed process names `p`: only the idle process may hold a stray address
    have := placed.waits r
    have := placed.closed q
    by_cases atP : r = p <;> by_cases qP : q = p <;> by_cases qIdle : q = idle
    all_goals grind
  · have := placed.closed q
    by_cases qP : q = p
    all_goals grind
  · have := placed.idleRuns
    grind

theorem Placed.attach (placed : Placed attachedFrom idle listed lines place (some c)) (notIdle : c ≠ idle)
    (fresh : p ∉ listed) (unknown : attachedFrom idle ≠ some p) :
    Placed (Function.update attachedFrom p (some c)) idle (listed ++ [p])
      (Function.update lines .ready (lines .ready ++ [p]))
      (Function.update (Function.update place p (.queued .ready)) c (.attached p)) none := by
  have idleListed := placed.idleListed
  obtain ⟨cListed, cRuns⟩ := (placed.running c).mp rfl
  have cNew : c ≠ p := by
    rintro rfl
    exact fresh cListed
  have idleNew : idle ≠ p := by
    rintro rfl
    exact fresh idleListed
  refine ⟨fun j r => ?_, fun r => ?_, fun r member q => ?_, fun q member other undeleted => ?_,
    List.mem_append_left _ idleListed, ?_⟩
  · have := placed.queued j r
    by_cases atReady : j = .ready <;> by_cases atP : r = p <;> by_cases atC : r = c
    all_goals grind
  · have := placed.running r
    by_cases atP : r = p <;> by_cases atC : r = c
    all_goals grind
  · have := placed.waits r
    have := placed.waits c cListed q
    have := placed.closed q
    by_cases atP : r = p <;> by_cases qP : q = p <;> by_cases qIdle : q = idle <;> by_cases atC : r = c
    all_goals grind
  · have := placed.closed q
    by_cases qP : q = p <;> by_cases qC : q = c
    all_goals grind
  · have := placed.idleRuns
    grind

theorem Placed.delete (placed : Placed attachedFrom idle listed lines place run) :
    Placed attachedFrom idle (listed.filter (· ∉ lines .delete)) (Function.update lines .delete []) place run := by
  have queued := placed.queued .delete
  refine ⟨fun j r => ?_, fun r => ?_, fun r member q => ?_, fun q member other undeleted => ?_, ?_, placed.idleRuns⟩
  · have := placed.queued j r
    have := queued r
    by_cases atDelete : j = .delete
    all_goals grind
  · have := placed.running r
    have := queued r
    grind
  · have := placed.waits r
    have := queued q
    grind
  · intro p isParent
    have := placed.closed q
    have := placed.waits p
    have := queued p
    grind
  · have := placed.idleListed
    have := placed.idleRuns
    have := queued idle
    grind

end Moves
end Kerosene.Sched
