import Kerosene.Sched.Locations
import Mathlib.Data.Nat.ModEq

/-!
# The permits of a semaphore

A ledger is kept beside the scheduler from `semaphore_init` on: the permits released and granted,
and the requests that had to wait, as they arrived and as they were served.
-/

namespace Kerosene.Sched
open Lib

namespace Scheduler
variable {S : Type} [DecidableEq S] {s s' : Scheduler S} {idle : Addr} {listed : List Addr} {lines : QueueId S → List Addr}
  {place : Addr → Place S}

def request (s : Scheduler S) (p : Addr) : Addr × BitVec 32 := (p, (s.proc p).waitingForResourceCount)

theorem Inv.semaphoreInit (inv : s.Inv idle listed lines place (some s.currentProcess)) {sem : S}
    (unused : s.members (.waiting sem) = []) (initialCount : BitVec 32) :
    (s.semaphoreInit sem initialCount).Inv idle listed lines place (some s.currentProcess) := by
  have empty : lines (.waiting sem) = [] := (inv.linked.members _).symm.trans unused
  refine ⟨⟨fun k => ?_, inv.linked.apart⟩,
    inv.registered.quiet ⟨fun _ => rfl, fun _ => rfl, fun _ => rfl, fun _ => rfl, rfl, rfl⟩, inv.placed, inv.id⟩
  by_cases same : k = .waiting sem
  · subst same
    rw [empty]
    simp only [Scheduler.semaphoreInit, Function.update_self]
    exact ⟨rfl, by simp, rfl⟩
  · simp only [Scheduler.semaphoreInit, Function.update_of_ne same]
    exact inv.linked.holds k

end Scheduler

structure Ledger (S : Type) where
  running : Running S
  released : Nat
  granted : Nat
  arrived : List (Addr × BitVec 32)
  served : List (Addr × BitVec 32)

namespace Ledger
open Scheduler
variable {S : Type} [DecidableEq S]

def waiting (sem : S) (r : Running S) : List Addr := r.sched.members (.waiting sem)

/-- The waiters that a call has taken off the queue, which are at its front. -/
def gone (sem : S) (before after : Running S) : List Addr :=
  (waiting sem before).take ((waiting sem before).length - (waiting sem after).length)

def enter (sem : S) (l : Ledger S) (after : Running S) : SchedCall S → Ledger S
  | .acquire _ used count =>
      if used = sem then
        if l.running.sched.semCount sem ≥ count then { l with running := after, granted := l.granted + count.toNat }
        else { l with running := after, arrived := l.arrived ++ [(l.running.sched.currentProcess, count)] }
      else { l with running := after }
  | .release used count =>
      if used = sem then
        let served := (gone sem l.running after).map l.running.sched.request
        { l with
          running := after
          released := l.released + count.toNat
          granted := l.granted + (served.map fun request => request.2.toNat).sum
          served := l.served ++ served }
      else { l with running := after }
  | _ => { l with running := after }

def keeping (idle : Addr) (sem : S) : Machine (Ledger S) (SchedCall S) where
  Legal l call := l.running.Legal idle call
  step l call := (l.running.exec call).map fun after => l.enter sem after call

/-- The ledger at `semaphore_init`. -/
def opened (r : Running S) (sem : S) (initialCount : BitVec 32) : Ledger S :=
  ⟨{ r with sched := r.sched.semaphoreInit sem initialCount }, 0, 0, [], []⟩

/-- Nobody waits for permits that are there, the waiters are served in the order they came, and no
permit is lost or made. -/
structure Balanced (sem : S) (initialCount : BitVec 32) (l : Ledger S) : Prop where
  noLostWakeUp : ∀ p, (waiting sem l.running).head? = some p →
    l.running.sched.semCount sem < (l.running.sched.proc p).waitingForResourceCount
  inOrder : l.arrived = l.served ++ (waiting sem l.running).map l.running.sched.request
  permits : initialCount.toNat + l.released ≡ (l.running.sched.semCount sem).toNat + l.granted [MOD 2 ^ 32]

/-- A release puts the first waiters on the ready queue, and takes from the count what they asked for. -/
structure HandsOver (sem : S) (s t : Scheduler S) (count : BitVec 32) (front : List Addr) : Prop where
  line : s.members (.waiting sem) = front ++ t.members (.waiting sem)
  ready : t.members .ready = s.members .ready ++ front
  count : t.semCount sem = s.semCount sem + count - s.wantedBy front

variable {sem : S} {idle : Addr} {initialCount : BitVec 32} {l : Ledger S} {lines : QueueId S → List Addr}
  {place : Addr → Place S}

omit [DecidableEq S] in
theorem toNat_wantedBy (s : Scheduler S) (front : List Addr) :
    (s.wantedBy front).toNat ≡ ((front.map s.request).map fun request => request.2.toNat).sum [MOD 2 ^ 32] := by
  induction front with
  | nil => rfl
  | cons p front ih =>
      have split : s.wantedBy (p :: front) = (s.proc p).waitingForResourceCount + s.wantedBy front := by
        simp [wantedBy]
      rw [split, BitVec.toNat_add, List.map_cons, List.map_cons, List.sum_cons]
      exact (Nat.mod_modEq _ _).trans (Nat.ModEq.add_left _ ih)

omit [DecidableEq S] in
theorem Balanced.bypass {t : Running S} (balanced : l.Balanced sem initialCount)
    (line : waiting sem t = waiting sem l.running)
    (wanted : ∀ p ∈ waiting sem l.running, t.sched.request p = l.running.sched.request p)
    (count : t.sched.semCount sem = l.running.sched.semCount sem) : Balanced sem initialCount { l with running := t } := by
  refine ⟨fun p first => ?_, ?_, ?_⟩
  · rw [line] at first
    have same : (t.sched.proc p).waitingForResourceCount = (l.running.sched.proc p).waitingForResourceCount :=
      congrArg Prod.snd (wanted p (List.mem_of_mem_head? first))
    rw [count, same]
    exact balanced.noLostWakeUp p first
  · rw [line, List.map_congr_left wanted]
    exact balanced.inOrder
  · rw [count]
    exact balanced.permits

omit [DecidableEq S] in
theorem Balanced.grant {t : Running S} {count : BitVec 32} (balanced : l.Balanced sem initialCount)
    (line : waiting sem t = waiting sem l.running)
    (wanted : ∀ p ∈ waiting sem l.running, t.sched.request p = l.running.sched.request p)
    (enough : l.running.sched.semCount sem ≥ count)
    (left : t.sched.semCount sem = l.running.sched.semCount sem - count) :
    Balanced sem initialCount { l with running := t, granted := l.granted + count.toNat } := by
  have leftNat : (t.sched.semCount sem).toNat + count.toNat = (l.running.sched.semCount sem).toNat := by
    have := BitVec.le_def.mp enough
    rw [left, BitVec.toNat_sub_of_le enough]
    omega
  refine ⟨fun p first => ?_, ?_, ?_⟩
  · rw [line] at first
    have same : (t.sched.proc p).waitingForResourceCount = (l.running.sched.proc p).waitingForResourceCount :=
      congrArg Prod.snd (wanted p (List.mem_of_mem_head? first))
    have short := BitVec.lt_def.mp (balanced.noLostWakeUp p first)
    change t.sched.semCount sem < (t.sched.proc p).waitingForResourceCount
    rw [same, BitVec.lt_def]
    omega
  · rw [line, List.map_congr_left wanted]
    exact balanced.inOrder
  · have permits := balanced.permits
    rw [← leftNat] at permits
    convert permits using 1
    change (t.sched.semCount sem).toNat + (l.granted + count.toNat) = _
    omega

omit [DecidableEq S] in
theorem Balanced.block {t : Running S} {count : BitVec 32} (balanced : l.Balanced sem initialCount)
    (line : waiting sem t = waiting sem l.running ++ [l.running.sched.currentProcess])
    (wanted : ∀ p ∈ waiting sem l.running, t.sched.request p = l.running.sched.request p)
    (own : (t.sched.proc l.running.sched.currentProcess).waitingForResourceCount = count)
    (short : ¬ l.running.sched.semCount sem ≥ count)
    (left : t.sched.semCount sem = l.running.sched.semCount sem) :
    Balanced sem initialCount
      { l with running := t, arrived := l.arrived ++ [(l.running.sched.currentProcess, count)] } := by
  refine ⟨fun p first => ?_, ?_, ?_⟩
  · rw [line, List.head?_append] at first
    cases front : (waiting sem l.running).head? with
    | none =>
        rw [front] at first
        cases first
        rw [left, own]
        exact BitVec.not_le.mp short
    | some q =>
        rw [front] at first
        cases first
        have same : (t.sched.proc p).waitingForResourceCount = (l.running.sched.proc p).waitingForResourceCount :=
          congrArg Prod.snd (wanted p (List.mem_of_mem_head? front))
        rw [left, same]
        exact balanced.noLostWakeUp p front
  · rw [line, List.map_append, List.map_congr_left wanted, ← List.append_assoc, ← balanced.inOrder]
    simp only [List.map_cons, List.map_nil, request, own]
  · rw [left]
    exact balanced.permits

omit [DecidableEq S] in
theorem HandsOver.gone_eq {r t : Running S} {count : BitVec 32} {front : List Addr}
    (hands : HandsOver sem r.sched t.sched count front) : gone sem r t = front := by
  have line : waiting sem r = front ++ waiting sem t := hands.line
  rw [gone, line, List.length_append, Nat.add_sub_cancel, List.take_left']
  rfl

omit [DecidableEq S] in
theorem Balanced.serve {t : Running S} {count : BitVec 32} {front : List Addr} (balanced : l.Balanced sem initialCount)
    (hands : HandsOver sem l.running.sched t.sched count front)
    (wanted : ∀ p, t.sched.request p = l.running.sched.request p)
    (short : ∀ p, (waiting sem t).head? = some p → t.sched.semCount sem < (t.sched.proc p).waitingForResourceCount) :
    Balanced sem initialCount
      { l with
        running := t
        released := l.released + count.toNat
        granted := l.granted + (((gone sem l.running t).map l.running.sched.request).map
          fun request => request.2.toNat).sum
        served := l.served ++ (gone sem l.running t).map l.running.sched.request } := by
  rw [hands.gone_eq]
  have line : waiting sem l.running = front ++ waiting sem t := hands.line
  refine ⟨short, ?_, ?_⟩
  · change l.arrived = (l.served ++ front.map l.running.sched.request) ++ (waiting sem t).map t.sched.request
    rw [balanced.inOrder, line, List.map_append, List.append_assoc, funext wanted]
  · have sum : t.sched.semCount sem + l.running.sched.wantedBy front = l.running.sched.semCount sem + count := by
      rw [hands.count]
      ring
    have sumNat : (t.sched.semCount sem).toNat + (l.running.sched.wantedBy front).toNat ≡
        (l.running.sched.semCount sem).toNat + count.toNat [MOD 2 ^ 32] := by
      have := congrArg BitVec.toNat sum
      rwa [BitVec.toNat_add, BitVec.toNat_add] at this
    have wantedNat := toNat_wantedBy l.running.sched front
    calc initialCount.toNat + (l.released + count.toNat)
        = (initialCount.toNat + l.released) + count.toNat := by omega
      _ ≡ ((l.running.sched.semCount sem).toNat + l.granted) + count.toNat [MOD 2 ^ 32] :=
          balanced.permits.add_right _
      _ = ((l.running.sched.semCount sem).toNat + count.toNat) + l.granted := by omega
      _ ≡ ((t.sched.semCount sem).toNat + (l.running.sched.wantedBy front).toNat) + l.granted [MOD 2 ^ 32] :=
          sumNat.symm.add_right _
      _ ≡ ((t.sched.semCount sem).toNat + _) + l.granted [MOD 2 ^ 32] := (wantedNat.add_left _).add_right _
      _ = (t.sched.semCount sem).toNat + (l.granted + _) := by omega

theorem handsOver_of_serves {s s' : Scheduler S} {count : BitVec 32} {front back : List Addr} (linked : s.Linked lines)
    (serves : Serves s s' lines sem (s.semCount sem + count) front back) : HandsOver sem s s' count front := by
  have after := serves.becomes.linked
  refine ⟨?_, ?_, ?_⟩
  · rw [linked.members, after.members, serves.line]
    simp [Scheduler.released]
  · rw [linked.members, after.members]
    simp [Scheduler.released]
  · rw [serves.semCount, Function.update_self]

theorem Balanced.step (inv : l.running.sched.Inv idle l.running.live lines place (some l.running.sched.currentProcess))
    (balanced : l.Balanced sem initialCount) {call : SchedCall S} (legal : l.running.Legal idle call) {t : Running S}
    (done : l.running.exec call = some t) :
    t.sched.Sound idle t.live ∧ (l.enter sem t call).Balanced sem initialCount := by
  obtain ⟨u, lines', same, ⟨place', kept⟩, _, effect⟩ := Running.exec_effect inv legal
  cases same.symm.trans done
  refine ⟨⟨lines', place', kept⟩, ?_⟩
  have before : waiting sem l.running = lines (.waiting sem) := inv.linked.members _
  have after : waiting sem t = lines' (.waiting sem) := kept.linked.members _
  have wanted : ∀ p ∈ waiting sem l.running, t.sched.request p = l.running.sched.request p := by
    intro p member
    rw [before] at member
    rw [request, effect.wanted _ p member, request]
  have bypass : Running.Bypassed l.running.sched t.sched lines lines' sem →
      Balanced sem initialCount { l with running := t } :=
    fun bypassed => balanced.bypass (by rw [before, after, bypassed.1]) wanted bypassed.2
  have waiters := effect.waiters sem
  cases call with
  | acquire regs used count =>
      simp only [Running.WaitEffect] at waiters
      simp only [enter]
      by_cases here : used = sem
      · rw [if_pos here] at waiters ⊢
        by_cases enough : l.running.sched.semCount sem ≥ count
        · rw [if_pos enough] at waiters ⊢
          exact balanced.grant (by rw [before, after, waiters.1]) wanted enough waiters.2
        · rw [if_neg enough] at waiters ⊢
          exact balanced.block (by rw [before, after, waiters.line]) wanted waiters.wanted enough
            (congrFun waiters.steady.semCount sem)
      · rw [if_neg here] at waiters ⊢
        exact bypass waiters
  | release used count =>
      simp only [Running.WaitEffect] at waiters
      simp only [enter]
      by_cases here : used = sem
      · rw [if_pos here] at waiters ⊢
        obtain ⟨front, back, serves, rfl⟩ := waiters
        refine balanced.serve (handsOver_of_serves inv.linked serves) (fun p => ?_) fun p first => ?_
        · rw [request, serves.requests.wanted, request]
        · rw [after] at first
          rw [serves.requests.wanted]
          exact serves.short p (by simpa [Scheduler.released] using first)
      · rw [if_neg here] at waiters ⊢
        exact bypass waiters
  | add | yield | sleep | kill | attach | switch => exact bypass waiters

/-- From `semaphore_init` on, over every run: nobody waits for permits that are there, waiters are
served in order, each released waiter has its permits taken, and the permits add up. -/
theorem semaphore_serves_in_order (proc : Heap) (semCount : S → BitVec 32) (idle : Addr)
    (pageDirectory tssStack : BitVec 32) (isIdle : (proc idle).id = 1) {r : Running S}
    (boot : (Running.scheduling idle).Reaches (Running.initial proc semCount idle pageDirectory tssStack) r) {sem : S}
    (unused : r.sched.members (.waiting sem) = []) (initialCount : BitVec 32) {l : Ledger S}
    (run : (keeping idle sem).Reaches (opened r sem initialCount) l) :
    l.Balanced sem initialCount ∧
    ∀ count, ∃ t front, l.running.sched.semaphoreRelease sem count = some t ∧
      HandsOver sem l.running.sched t count front := by
  have sound := Running.sound_of_reaches (Running.initial_sound proc semCount idle pageDirectory tssStack isIdle) boot
  have start : (opened r sem initialCount).running.sched.Sound idle r.live ∧
      (opened r sem initialCount).Balanced sem initialCount := by
    obtain ⟨lines, place, inv⟩ := sound
    have opens := inv.semaphoreInit unused initialCount
    have line : lines (.waiting sem) = [] := (inv.linked.members _).symm.trans unused
    have empty : waiting sem (opened r sem initialCount).running = [] := (opens.linked.members _).trans line
    refine ⟨⟨lines, place, opens⟩, fun p first => ?_, ?_, ?_⟩
    · rw [empty] at first
      cases first
    · rw [empty]
      rfl
    · simp only [opened, semaphoreInit, Function.update_self]
      rfl
  have kept := run.invariant
    (I := fun l => l.running.sched.Sound idle l.running.live ∧ l.Balanced sem initialCount) ?_ start
  · obtain ⟨⟨lines, place, inv⟩, balanced⟩ := kept
    refine ⟨balanced, fun count => ?_⟩
    obtain ⟨t, front, back, done, serves⟩ := inv.linked.semaphoreRelease sem count
    exact ⟨t, front, done, handsOver_of_serves inv.linked serves⟩
  · rintro l call next ⟨⟨lines, place, inv⟩, balanced⟩ legal step
    obtain ⟨t, done, rfl⟩ := Option.map_eq_some_iff.mp step
    obtain ⟨sound, balanced⟩ := Balanced.step inv balanced legal done
    have running : (l.enter sem t call).running = t := by
      cases call <;> simp only [enter] <;> split_ifs <;> rfl
    rw [running]
    exact ⟨sound, balanced⟩

theorem semaphore_serves_in_order_one_waiter :
    ∃ l : Ledger Unit, (keeping 1 ()).Reaches (opened (Running.bootedWith none) () 0#32) l ∧
      l.served = [(2, 1#32)] ∧ l.Balanced () 0#32 := by
  have run := ((((Machine.Reaches.refl (M := keeping 1 ()) (opened (Running.bootedWith none) () 0#32)).snoc
    (i := SchedCall.add 2 (Running.blankProcess 2 none)) ⟨by decide, rfl⟩ rfl).snoc
    (i := SchedCall.yield ⟨0#32, 0#32⟩) trivial rfl).snoc
    (i := SchedCall.acquire ⟨0#32, 0#32⟩ () 1#32) (.inl (by decide)) rfl).snoc
    (i := SchedCall.release () 1#32) trivial rfl
  exact ⟨_, run, rfl, (semaphore_serves_in_order _ _ 1 _ _ rfl (.refl _) rfl 0#32 run).1⟩

end Ledger
end Kerosene.Sched
