import Kerosene.Sched.Effects

/-!
# The scheduler keeps every process in one place
-/

namespace Kerosene.Sched
open Lib

namespace Running
variable {S : Type} [DecidableEq S]

-- `process_make_idle` leaves `attached_from` as `kmalloc` returned it
def NotStray (idle : Addr) (r : Running S) : SchedCall S → Prop
  | .add p _ | .attach _ p _ => (r.sched.proc idle).attachedFrom ≠ some p
  | _ => True

def straylessScheduling (idle : Addr) : Machine (Running S) (SchedCall S) where
  Legal r call := r.Legal idle call ∧ r.NotStray idle call
  step := exec

def Occupies (s : Scheduler S) (live : List Addr) (lines : QueueId S → List Addr) (p : Addr) : Place S → Prop
  | .current => s.currentProcess = p
  | .queued k => p ∈ lines k
  | .attached q => q ∈ live ∧ q ∉ lines .delete ∧ (s.proc q).attachedFrom = some p

/-- Every live process is in exactly one place, and the global list is what it should be. -/
structure Located (r : Running S) (idle : Addr) (lines : QueueId S → List Addr) : Prop where
  queues : ∀ k, Holds r.sched.proc (r.sched.queue k) (lines k)
  once : ∀ k, (lines k).Nodup
  members : ∀ k, ∀ p ∈ lines k, p ∈ r.live
  place : ∀ p ∈ r.live, ∃! place, Occupies r.sched r.live lines p place
  globalList : r.sched.Registered idle r.live

/-- No live process has the address that the idle process is said to be attached from. -/
def Clear (idle : Addr) (r : Running S) : Prop := ∀ p ∈ r.live, (r.sched.proc idle).attachedFrom ≠ some p

omit [DecidableEq S] in
theorem located_of_inv {r : Running S} {idle : Addr} {lines : QueueId S → List Addr} {place : Addr → Place S}
    (inv : r.sched.Inv idle r.live lines place (some r.sched.currentProcess)) (clear : r.Clear idle) :
    r.Located idle lines := by
  have attached : ∀ p ∈ r.live, ∀ q, r.sched.attachments idle q = some p ↔ (r.sched.proc q).attachedFrom = some p := by
    intro p member q
    by_cases isIdle : q = idle
    · rw [isIdle]
      exact iff_of_false (Scheduler.attachments_idle r.sched idle p) (clear p member)
    · rw [Scheduler.attachments_of_ne isIdle]
  have occupies : ∀ p ∈ r.live, ∀ at', Occupies r.sched r.live lines p at' ↔ place p = at' := by
    intro p member at'
    cases at' with
    | current =>
        have := inv.placed.running p
        simp only [Occupies, Option.some.injEq] at this ⊢
        grind
    | queued k =>
        have := inv.placed.queued k p
        simp only [Occupies]
        grind
    | attached q =>
        have waits := inv.placed.waits p member q
        have := inv.placed.queued .delete q
        simp only [Occupies]
        rw [waits, attached p member]
        grind
  refine ⟨inv.linked.holds, fun k => (inv.linked.holds k).seg.nodup,
    fun k p inside => ((inv.placed.queued k p).mp inside).1, fun p member => ?_, inv.registered⟩
  exact ⟨place p, (occupies p member _).mpr rfl, fun other h => ((occupies p member other).mp h).symm⟩

theorem exec_live {r t : Running S} {call : SchedCall S} (done : r.exec call = some t) {p : Addr} (member : p ∈ t.live) :
    p ∈ r.live ∨ (∃ record, call = .add p record) ∨ ∃ regs record, call = .attach regs p record := by
  cases call with
  | add q record =>
      obtain ⟨s, _, rfl⟩ := Option.map_eq_some_iff.mp done
      rcases List.mem_append.mp member with old | new
      · exact .inl old
      · cases List.mem_singleton.mp new
        exact .inr (.inl ⟨record, rfl⟩)
  | attach regs q record =>
      obtain ⟨s, _, rfl⟩ := Option.map_eq_some_iff.mp done
      rcases List.mem_append.mp member with old | new
      · exact .inl old
      · cases List.mem_singleton.mp new
        exact .inr (.inr ⟨regs, record, rfl⟩)
  | switch regs =>
      obtain ⟨s, _, rfl⟩ := Option.map_eq_some_iff.mp done
      exact .inl (List.mem_filter.mp member).1
  | yield | sleep | kill | acquire | release =>
      obtain ⟨s, _, rfl⟩ := Option.map_eq_some_iff.mp done
      exact .inl member

theorem Clear.step {r t : Running S} {idle : Addr} {call : SchedCall S} (clear : r.Clear idle)
    (stray : r.NotStray idle call) (done : r.exec call = some t)
    (attached : t.sched.attachedOf idle = r.sched.attachedOf idle) : t.Clear idle := by
  intro p member
  rw [show (t.sched.proc idle).attachedFrom = (r.sched.proc idle).attachedFrom from attached]
  rcases exec_live done member with old | ⟨record, rfl⟩ | ⟨regs, record, rfl⟩
  · exact clear p old
  · exact stray
  · exact stray

theorem clear_of_reaches {idle : Addr} {start r : Running S} (sound : start.sched.Sound idle start.live)
    (clear : start.Clear idle) (run : (straylessScheduling idle).Reaches start r) :
    r.sched.Sound idle r.live ∧ r.Clear idle := by
  refine run.invariant (I := fun r => r.sched.Sound idle r.live ∧ r.Clear idle) ?_ ⟨sound, clear⟩
  rintro r call t ⟨sound, clear⟩ ⟨legal, stray⟩ step
  obtain ⟨u, done, kept, attached⟩ := exec_sound sound legal
  have same : some u = some t := done.symm.trans step
  cases same
  exact ⟨kept, clear.step stray done attached⟩

/-- As long as no process of the list has the address that the idle process's uninitialised
`attached_from` happens to hold, every process stays in exactly one place over every run, and the
ready queue is never found empty. -/
theorem scheduler_locates_processes (proc : Heap) (semCount : S → BitVec 32) (idle : Addr)
    (pageDirectory tssStack : BitVec 32) (isIdle : (proc idle).id = 1)
    (stray : (proc idle).attachedFrom ≠ some idle) (r : Running S)
    (run : (straylessScheduling idle).Reaches (initial proc semCount idle pageDirectory tssStack) r) :
    (∃ lines, r.Located idle lines) ∧
    ∀ call, r.Legal idle call → r.NotStray idle call → ∃ t, r.exec call = some t := by
  have alone : (initial proc semCount idle pageDirectory tssStack).Clear idle := by
    intro p member
    cases List.mem_singleton.mp member
    simpa [initial, Scheduler.schedulerInit] using stray
  obtain ⟨sound, clear⟩ := clear_of_reaches (initial_sound proc semCount idle pageDirectory tssStack isIdle) alone run
  refine ⟨?_, fun call legal _ => ?_⟩
  · obtain ⟨lines, place, inv⟩ := sound
    exact ⟨lines, located_of_inv inv clear⟩
  · obtain ⟨t, done, _⟩ := exec_sound sound legal
    exact ⟨t, done⟩

def blankProcess (id : Int) (attachedFrom : Option Addr) : Process where
  id := id
  state := .ready
  aliveTicks := 0#64
  sleepTicks := 0#64
  pageDirectory := 0#32
  receivedExitCode := 0#32
  attachedFrom := attachedFrom
  savedEsp := 0#32
  tssEsp0 := 0#32
  waitingForResourceCount := 0#32
  queueNext := none
  globalNext := none
  globalPrev := none

-- an idle process at 1 whose `attached_from` holds `stray`, and one semaphore
def bootedWith (stray : Option Addr) : Running Unit :=
  initial (fun _ => blankProcess 1 stray) (fun _ => 0#32) 1 0#32 0#32

theorem scheduler_locates_processes_after_add :
    ∃ r lines, (straylessScheduling 1).Reaches (bootedWith none) r ∧ r.live = [1, 2] ∧ r.Located 1 lines := by
  have run := (Machine.Reaches.refl (M := straylessScheduling 1) (bootedWith none)).snoc
    (i := SchedCall.add 2 (blankProcess 2 none)) ⟨⟨by decide, rfl⟩, show (none : Option Addr) ≠ some 2 by decide⟩ rfl
  obtain ⟨lines, located⟩ := (scheduler_locates_processes _ _ 1 _ _ rfl (by decide) _ run).1
  exact ⟨_, lines, run, rfl, located⟩

/-- A process added at the address in the idle process's stray field is ready, and it is also what
the idle process is attached from. -/
theorem scheduler_stray_process :
    ∃ r, (scheduling 1).Reaches (bootedWith (some 2)) r ∧ ¬ ∃ lines, r.Located 1 lines := by
  refine ⟨_, (Machine.Reaches.refl (M := scheduling 1) (bootedWith (some 2))).snoc
    (i := SchedCall.add 2 (blankProcess 2 none)) ⟨by decide, rfl⟩ rfl, ?_⟩
  rintro ⟨lines, located⟩
  have ready : 2 ∈ lines .ready := List.mem_of_mem_head? (located.queues .ready).seg.head.symm
  have noneDeleted : (lines .delete).head? = none := (located.queues .delete).seg.head.symm
  have idleStays : 1 ∉ lines .delete := by
    rw [List.head?_eq_none_iff.mp noneDeleted]
    exact List.not_mem_nil
  obtain ⟨place, _, only⟩ := located.place 2 (by decide)
  have inQueue := only (.queued .ready) ready
  have attached := only (.attached 1) ⟨by decide, idleStays, rfl⟩
  rw [← attached] at inQueue
  cases inQueue

end Running
end Kerosene.Sched
