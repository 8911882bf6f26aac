import Kerosene.Sched.Locations
import Kerosene.Sched.Turns

/-!
# Round robin

A history is a run with the processes that became current, one for each call of `scheduler_to_next_process`.
-/

namespace Kerosene.Sched
open Lib Running

/-- A switch as `yield` makes it when the caller's `bl` is 0, or the set-up of a semaphore, besides the calls of
`SchedCall`. -/
inductive SchedEvent (S : Type) where
  | call (call : SchedCall S)
  | leave (regs : Regs)
  | init (sem : S) (count : BitVec 32)

structure History (S : Type) where
  running : Running S
  turns : List Addr

variable {S : Type} [DecidableEq S]

namespace Running

def handle (r : Running S) : SchedEvent S → Option (Running S)
  | .call call => r.exec call
  | .leave regs => (r.sched.schedulerToNextProcess regs false).map fun (_, s) => ⟨s, r.live⟩
  | .init sem count => some ⟨r.sched.semaphoreInit sem count, r.live⟩

/-- New processes are fresh from `process_new`. Attaching from user mode is a kill. -/
def Allows (r : Running S) : SchedEvent S → Prop
  | .call (.add p record) => p ∉ r.live ∧ record.attachedFrom = none
  | .call (.attach regs p _) => p ∉ r.live ∧ regs.cs &&& 3#32 = 0#32
  | _ => True

/-- Whether the code comes to call `scheduler_to_next_process`. -/
def switches (r : Running S) : SchedEvent S → Bool
  | .call (.yield _) | .call (.sleep _ _) | .call (.attach _ _ _) | .leave _ => true
  | .call (.kill _ _) => (r.sched.proc r.sched.currentProcess).id ≠ 1
  | .call (.acquire _ sem count) => ¬ r.sched.semCount sem ≥ count
  | .call (.switch _) => r.sched.timeIsUp
  | .call (.add _ _) | .call (.release _ _) | .init _ _ => false

variable {r t : Running S} {lines : QueueId S → List Addr} {alive : Set Addr} {event : SchedEvent S}

theorem handle_turns (orderly : r.sched.Orderly r.live lines alive (some r.sched.currentProcess)) (allowed : r.Allows event)
    (done : r.handle event = some t) : r.sched.Turns t.sched t.live lines (r.switches event) := by
  cases event with
  | leave regs =>
      obtain ⟨⟨esp, s⟩, called, rfl⟩ := Option.map_eq_some_iff.mp done
      exact orderly.leave called
  | init sem count =>
      cases done
      exact orderly.init sem count
  | call call =>
      cases call with
      | add p record =>
          obtain ⟨s, called, rfl⟩ := Option.map_eq_some_iff.mp done
          exact orderly.addNew allowed.1 allowed.2 called
      | yield regs =>
          obtain ⟨⟨esp, s⟩, called, rfl⟩ := Option.map_eq_some_iff.mp done
          exact orderly.yield called
      | sleep regs ticks =>
          obtain ⟨⟨esp, s⟩, called, rfl⟩ := Option.map_eq_some_iff.mp done
          exact orderly.sleep called
      | kill regs exitCode =>
          obtain ⟨⟨esp, s⟩, called, rfl⟩ := Option.map_eq_some_iff.mp done
          exact orderly.kill called
      | attach regs p record =>
          obtain ⟨⟨esp, s⟩, called, rfl⟩ := Option.map_eq_some_iff.mp done
          exact orderly.attach allowed.1 allowed.2 called
      | acquire regs sem count =>
          obtain ⟨⟨esp, s⟩, called, rfl⟩ := Option.map_eq_some_iff.mp done
          exact orderly.acquire called
      | release sem count =>
          obtain ⟨s, called, rfl⟩ := Option.map_eq_some_iff.mp done
          exact orderly.release called
      | switch regs =>
          obtain ⟨⟨deleted, esp, s⟩, called, rfl⟩ := Option.map_eq_some_iff.mp done
          obtain ⟨rfl, turns⟩ := orderly.switch called
          exact turns

omit [DecidableEq S] in
theorem initial_orderly (proc : Heap) (semCount : S → BitVec 32) (idle : Addr) (pageDirectory tssStack : BitVec 32)
    (isIdle : (proc idle).id = 1) :
    (initial proc semCount idle pageDirectory tssStack).sched.Orderly [idle] (fun _ => []) {idle} (some idle) := by
  have nobody : (initial proc semCount idle pageDirectory tssStack).sched.parentOf idle = none := by
    refine if_pos ?_
    simpa [initial, Scheduler.schedulerInit] using isIdle
  refine ⟨⟨fun k => ⟨rfl, ?_, rfl⟩, ?_⟩, ?_, ?_, ?_, ?_, ?_, ?_⟩
  · rintro p ⟨⟩
  · rintro j k apart p ⟨⟩
  · rintro c ⟨⟩
    exact ⟨rfl, fun k => List.not_mem_nil⟩
  · exact fun k _ p inside => absurd inside List.not_mem_nil
  · exact fun p inside => absurd inside List.not_mem_nil
  · rintro c rfl
    exact List.mem_cons_self
  · rintro c rfl q attached
    rw [nobody] at attached
    cases attached
  · rintro c rfl d rfl q - -
    rfl

end Running

namespace History

def enter (h : History S) (event : SchedEvent S) (t : Running S) : History S :=
  ⟨t, h.turns ++ if h.running.switches event then [t.sched.currentProcess] else []⟩

def serving : Machine (History S) (SchedEvent S) where
  Legal h event := h.running.Allows event
  step h event := (h.running.handle event).map (h.enter event)

/-- The last who had a turn runs, and the ready processes come after those who had their turn. -/
structure Served (h : History S) (before : List Addr) : Prop where
  orderly : ∃ lines alive, h.running.sched.Orderly h.running.live lines alive (some h.running.sched.currentProcess)
  last : ∀ p, h.turns.getLast? = some p → h.running.sched.currentProcess = p
  order : before <+: h.turns ++ h.running.sched.members .ready

variable {h h' : History S} {before : List Addr} {event : SchedEvent S}

theorem Served.step (served : h.Served before) (allowed : h.running.Allows event) (step : serving.step h event = some h') :
    h'.Served before := by
  obtain ⟨t, done, rfl⟩ := Option.map_eq_some_iff.mp step
  obtain ⟨lines, alive, orderly⟩ := served.orderly
  obtain ⟨⟨lines', alive', orderly', order⟩, stays⟩ := handle_turns orderly allowed done
  refine ⟨⟨lines', alive', orderly'⟩, fun p isLast => ?_, ?_⟩
  · rw [enter] at isLast
    cases switched : h.running.switches event with
    | true =>
        rw [switched, if_pos rfl, List.getLast?_concat] at isLast
        exact Option.some.inj isLast
    | false =>
        rw [show (h.enter event t).running.sched.currentProcess = _ from stays switched]
        exact served.last p (by simpa [switched] using isLast)
  · refine served.order.trans ?_
    rw [enter, orderly.linked.members, orderly'.linked.members, List.append_assoc]
    exact (List.prefix_append_right_inj _).mpr order

theorem Served.reaches (served : h.Served before) (run : serving.Reaches h h') : h'.Served before :=
  run.invariant (I := fun h => h.Served before) (fun _ _ _ kept allowed step => kept.step allowed step) served

omit [DecidableEq S] in
theorem served_now (served : h.Served before) : h.Served (h.turns ++ h.running.sched.members .ready) :=
  ⟨served.orderly, served.last, List.prefix_refl _⟩

theorem served_of_reaches (proc : Heap) (semCount : S → BitVec 32) (idle : Addr) (pageDirectory tssStack : BitVec 32)
    (isIdle : (proc idle).id = 1) (run : serving.Reaches ⟨initial proc semCount idle pageDirectory tssStack, []⟩ h) : h.Served [] := by
  have start : (⟨initial proc semCount idle pageDirectory tssStack, []⟩ : History S).Served [] :=
    ⟨⟨_, _, initial_orderly proc semCount idle pageDirectory tssStack isIdle⟩, nofun, List.nil_prefix⟩
  exact start.reaches run

/-- Whoever is at place `k` of the ready queue has its turn at the call number `k + 1` from then on, and not before. -/
theorem round_robin (proc : Heap) (semCount : S → BitVec 32) (idle : Addr) (pageDirectory tssStack : BitVec 32)
    (isIdle : (proc idle).id = 1) (run : serving.Reaches ⟨initial proc semCount idle pageDirectory tssStack, []⟩ h)
    {k : Nat} {p : Addr} (queued : (h.running.sched.members .ready)[k]? = some p) (later : serving.Reaches h h') :
    (h'.turns.length ≤ h.turns.length + k → h'.running.sched.currentProcess ≠ p) ∧
      (h'.turns.length = h.turns.length + k + 1 → h'.running.sched.currentProcess = p) := by
  have served := (served_now (served_of_reaches proc semCount idle pageDirectory tssStack isIdle run)).reaches later
  have here : (h'.turns ++ h'.running.sched.members .ready)[h.turns.length + k]? = some p := by
    have place : (h.turns ++ h.running.sched.members .ready)[h.turns.length + k]? = some p := by
      rw [List.getElem?_append_right (Nat.le_add_right ..), Nat.add_sub_cancel_left]
      exact queued
    obtain ⟨rest, split⟩ := served.order
    rw [← split, List.getElem?_append_left (List.getElem?_eq_some_iff.mp place).1]
    exact place
  obtain ⟨lines, alive, orderly⟩ := served.orderly
  constructor
  · rintro few rfl
    rw [List.getElem?_append_right few, orderly.linked.members] at here
    exact (orderly.apart.running _ rfl).2 .ready (List.mem_of_getElem? here)
  · intro turn
    rw [List.getElem?_append_left (by omega)] at here
    refine served.last p ?_
    rwa [List.getLast?_eq_getElem?, turn, Nat.add_sub_cancel]

theorem round_robin_one_yield : ∃ h h' : History Unit, serving.Reaches ⟨bootedWith none, []⟩ h ∧ serving.Reaches h h' ∧
    (h.running.sched.members .ready)[0]? = some 2 ∧ h'.running.sched.currentProcess = 2 := by
  have run := (Machine.Reaches.refl (M := serving) (⟨bootedWith none, []⟩ : History Unit)).snoc
    (i := SchedEvent.call (.add 2 (blankProcess 2 none))) ⟨by decide, rfl⟩ rfl
  have yields : ∀ h h' : History Unit, serving.step h (.call (.yield ⟨0#32, 0#32⟩)) = some h' → serving.Reaches h h' :=
    fun h _ step => (Machine.Reaches.refl h).snoc (i := .call (.yield ⟨0#32, 0#32⟩)) trivial step
  exact ⟨_, _, run, yields _ _ rfl, rfl, (round_robin _ _ 1 _ _ rfl run (k := 0) (p := 2) rfl (yields _ _ rfl)).2 rfl⟩

end History
end Kerosene.Sched
