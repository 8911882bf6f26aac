import Kerosene.Lib.Machine
import Kerosene.Sched.Places
import Kerosene.Sched.Registry

/-!
# What each call does

Every call of the scheduler keeps each process in one place, and says what becomes of the sleepers,
the waiters and the counters.
-/

namespace Kerosene.Sched
open Lib

namespace Scheduler
variable {S : Type} {s s' : Scheduler S} {idle p : Addr} {listed : List Addr} {lines lines' : QueueId S → List Addr}

def attachedOf (s : Scheduler S) (p : Addr) : Option Addr := (s.proc p).attachedFrom

-- `process_make_idle` never writes the field, and nothing reads it: the idle process is never killed
def attachments (s : Scheduler S) (idle : Addr) : Addr → Option Addr := Function.update s.attachedOf idle none

structure Inv (s : Scheduler S) (idle : Addr) (listed : List Addr) (lines : QueueId S → List Addr)
    (place : Addr → Place S) (run : Option Addr) : Prop where
  linked : s.Linked lines
  registered : s.Registered idle listed
  placed : Placed (s.attachments idle) idle listed lines place run
  id : (s.proc idle).id = 1

def Sound (s : Scheduler S) (idle : Addr) (listed : List Addr) : Prop :=
  ∃ lines place, s.Inv idle listed lines place (some s.currentProcess)

/-- The scheduler is sound again, and only the `touched` queues may hold other processes. -/
structure Settles (s s' : Scheduler S) (idle : Addr) (listed : List Addr) (lines lines' : QueueId S → List Addr)
    (touched : List (QueueId S)) : Prop where
  sound : ∃ place, s'.Inv idle listed lines' place (some s'.currentProcess)
  others : ∀ k, k ∉ touched → lines' k = lines k
  idleAttached : s'.attachedOf idle = s.attachedOf idle

variable {place : Addr → Place S} {touched more : List (QueueId S)}

theorem Settles.after {t : Scheduler S} {mid : QueueId S → List Addr} (settles : Settles t s' idle listed mid lines' touched)
    (others : ∀ k, k ∉ more → mid k = lines k) (attached : t.attachedOf idle = s.attachedOf idle)
    (subset : touched ⊆ more) : Settles s s' idle listed lines lines' more :=
  ⟨settles.sound, fun k outside => (settles.others k fun inside => outside (subset inside)).trans (others k outside),
    settles.idleAttached.trans attached⟩

theorem attachments_of_ne (other : p ≠ idle) (s : Scheduler S) : s.attachments idle p = (s.proc p).attachedFrom :=
  Function.update_of_ne other _ _

theorem attachments_congr (same : s'.attachedOf = s.attachedOf) : s'.attachments idle = s.attachments idle := by
  rw [attachments, same, attachments]

theorem Inv.becomes {place' : Addr → Place S} {run run' : Option Addr} {c : Addr}
    (inv : s.Inv idle listed lines place run) (becomes : Becomes s s' lines' c)
    (placed : Placed (s.attachments idle) idle listed lines' place' run') : s'.Inv idle listed lines' place' run' := by
  have attached : s'.attachments idle = s.attachments idle := attachments_congr (funext becomes.quiet.attached)
  exact ⟨becomes.linked, inv.registered.quiet becomes.quiet, attached ▸ placed,
    (becomes.quiet.id idle).trans inv.id⟩

theorem Inv.settles {place' : Addr → Place S} {run : Option Addr} {c : Addr} (inv : s.Inv idle listed lines place run)
    (becomes : Becomes s s' lines' c) (placed : Placed (s.attachments idle) idle listed lines' place' (some c))
    (others : ∀ k, k ∉ touched → lines' k = lines k) : Settles s s' idle listed lines lines' touched :=
  ⟨⟨place', by rw [becomes.current]; exact inv.becomes becomes placed⟩, others, becomes.quiet.attached idle⟩

variable [DecidableEq S]

omit [DecidableEq S] in
theorem Inv.unlisted_free {run : Option Addr} (inv : s.Inv idle listed lines place run) (unlisted : p ∉ listed)
    (j : QueueId S) : p ∉ lines j := fun inside => unlisted ((inv.placed.queued j p).mp inside).1

/-! ## Switching -/

theorem Inv.toNext (inv : s.Inv idle listed lines place none) (regs : Regs) :
    ∃ esp s' lines', s.schedulerToNextProcess regs false = some (esp, s') ∧
      Settles s s' idle listed lines lines' [.ready] := by
  have idleReady : idle ∈ lines .ready := by
    refine (inv.placed.queued .ready idle).mpr ⟨inv.placed.idleListed, inv.placed.idleRuns.resolve_left fun runs => ?_⟩
    cases (inv.placed.running idle).mpr ⟨inv.placed.idleListed, runs⟩
  cases line : lines .ready with
  | nil =>
      rw [line] at idleReady
      cases idleReady
  | cons p l =>
      obtain ⟨esp, s', done, becomes⟩ := inv.linked.toNext line regs
      have nodup : (p :: l).Nodup := line ▸ (inv.linked.holds .ready).seg.nodup
      have placed := inv.placed.pick line (List.nodup_cons.mp nodup).1
      exact ⟨esp, s', _, done, inv.settles becomes placed fun k outside =>
        Function.update_of_ne (by simpa using outside) _ _⟩

theorem Inv.yield (inv : s.Inv idle listed lines place (some s.currentProcess)) (regs : Regs) :
    ∃ esp s' lines', s.schedulerToNextProcess regs true = some (esp, s') ∧
      Settles s s' idle listed lines lines' [.ready] := by
  have free := inv.placed.running_free
  obtain ⟨p, l, line⟩ : ∃ p l, lines .ready ++ [s.currentProcess] = p :: l := by
    cases lines .ready with
    | nil => exact ⟨_, _, rfl⟩
    | cons a k => exact ⟨_, _, rfl⟩
  obtain ⟨esp, s', done, becomes⟩ := inv.linked.toNext_back free line regs
  have back := inv.placed.enqueue (k := .ready) (by simp) (fun _ => rfl) (l := p :: l)
    (fun r => by rw [← line]; simp [or_comm])
  have nodup : (p :: l).Nodup := by
    rw [← line, List.nodup_append']
    exact ⟨(inv.linked.holds .ready).seg.nodup, by simp, by simpa using free .ready⟩
  have placed := back.pick (p := p) (l := l) (Function.update_self _ _ _) (List.nodup_cons.mp nodup).1
  rw [Function.update_idem] at placed
  exact ⟨esp, s', _, done, inv.settles becomes placed fun k outside =>
    Function.update_of_ne (by simpa using outside) _ _⟩

/-! ## Going to sleep and waking up -/

/-- The running process joins the sleepers, behind those that wake before it. -/
structure FallsAsleep (s s' : Scheduler S) (lines lines' : QueueId S → List Addr) (due : BitVec 64) : Prop where
  line : ∃ front back, lines .sleep = front ++ back ∧ lines' .sleep = front ++ s.currentProcess :: back ∧
    (∀ r ∈ front, (s.proc r).sleepTicks < due) ∧ ∀ r, back.head? = some r → ¬ (s.proc r).sleepTicks < due
  due : (s'.proc s.currentProcess).sleepTicks = due

omit [DecidableEq S] in
theorem Inv.not_current {k : QueueId S} {r : Addr} (inv : s.Inv idle listed lines place (some s.currentProcess))
    (member : r ∈ lines k) : r ≠ s.currentProcess := by
  rintro rfl
  exact inv.placed.running_free k member

def markAsleep (s : Scheduler S) (due : BitVec 64) : Scheduler S :=
  s.modify s.currentProcess fun r => { r with sleepTicks := due, state := .sleep }

theorem Inv.sleep (inv : s.Inv idle listed lines place (some s.currentProcess)) (notIdle : s.currentProcess ≠ idle)
    (regs : Regs) (ticks : BitVec 32) :
    ∃ esp s' lines', s.schedulerSetSleep regs ticks = some (esp, s') ∧
      Settles s s' idle listed lines lines' [.ready, .sleep] ∧
      FallsAsleep s s' lines lines' (ticks.setWidth 64 + s.globalSleepTicks) ∧
      Steady (s.markAsleep (ticks.setWidth 64 + s.globalSleepTicks)) s' := by
  have marked := inv.linked.modify (f := fun r =>
    { r with sleepTicks := ticks.setWidth 64 + s.globalSleepTicks, state := .sleep })
    ⟨fun _ => rfl, fun _ => rfl, fun _ => rfl, fun _ => rfl, fun _ => rfl⟩ s.currentProcess
  obtain ⟨proc, q, front, back, pushed, line, becomes, steady, early, late⟩ :=
    marked.linked.sleepPush inv.placed.running_free
  have placed := inv.placed.enqueue (k := .sleep) (by simp) (fun same => absurd same notIdle)
    (l := front ++ s.currentProcess :: back) fun r => by
      rw [line]
      simp only [List.mem_append, List.mem_cons]
      tauto
  have asleep := marked.trans becomes
  obtain ⟨esp, s', lines', done, settles⟩ := (inv.becomes asleep placed).toNext regs
  have requests := steady.trans (steady_toNext done)
  have own : ∀ r, r ≠ s.currentProcess →
      ((s.markAsleep (ticks.setWidth 64 + s.globalSleepTicks)).proc r).sleepTicks = (s.proc r).sleepTicks := by
    intro r other
    rw [markAsleep, proc_modify_ne other]
  refine ⟨esp, s', lines', ?_, ?_, ⟨⟨front, back, line, ?_, ?_, ?_⟩, ?_⟩, requests⟩
  · simp only [schedulerSetSleep, Option.bind_eq_bind]
    erw [pushed]
    exact done
  · refine settles.after (fun k outside => ?_) (asleep.quiet.attached idle) (by simp)
    simp only [List.mem_cons, not_or] at outside
    exact Function.update_of_ne outside.2.1 _ _
  · rw [settles.others .sleep (by simp), Function.update_self]
  · intro r member
    have other := inv.not_current (k := .sleep) (by rw [line]; exact List.mem_append_left _ member)
    have before := early r member
    rw [proc_modify_self, proc_modify_ne other] at before
    exact before
  · intro r first
    have other := inv.not_current (k := .sleep)
      (by rw [line]; exact List.mem_append_right _ (List.mem_of_mem_head? first))
    have after := late r first
    rw [proc_modify_self, proc_modify_ne other] at after
    exact after
  · rw [requests.sleepTicks, proc_modify_self]

/-! ## Semaphores -/

/-- An acquire that cannot be granted: the running process joins the waiters. -/
structure Blocks (s s' : Scheduler S) (lines lines' : QueueId S → List Addr) (sem : S) (count : BitVec 32) : Prop where
  line : lines' (.waiting sem) = lines (.waiting sem) ++ [s.currentProcess]
  wanted : (s'.proc s.currentProcess).waitingForResourceCount = count
  steady : Steady (s.modify s.currentProcess fun r => { r with state := .block, waitingForResourceCount := count }) s'

theorem Inv.granted (inv : s.Inv idle listed lines place (some s.currentProcess)) (sem : S) (count : BitVec 32) :
    Settles s (s.withSemCount sem count) idle listed lines lines [] :=
  inv.settles (inv.linked.withSemCount sem count) inv.placed fun _ _ => rfl

theorem Inv.blocked (inv : s.Inv idle listed lines place (some s.currentProcess)) (regs : Regs) (sem : S)
    (count : BitVec 32) (notIdle : s.currentProcess ≠ idle) (short : ¬ s.semCount sem ≥ count) :
    ∃ esp s' lines', s.semaphoreAcquire regs sem count = some (esp, s') ∧
      Settles s s' idle listed lines lines' [.ready, .waiting sem] ∧ Blocks s s' lines lines' sem count := by
  have marked := inv.linked.modify (f := fun r => { r with state := .block, waitingForResourceCount := count })
    ⟨fun _ => rfl, fun _ => rfl, fun _ => rfl, fun _ => rfl, fun _ => rfl⟩ s.currentProcess
  obtain ⟨t, pushed, becomes⟩ := marked.linked.pushQueue inv.placed.running_free (.waiting sem)
  have placed := inv.placed.enqueue (k := .waiting sem) (by simp) (fun same => absurd same notIdle)
    (l := lines (.waiting sem) ++ [s.currentProcess]) (fun r => by simp [or_comm])
  have asleep := marked.trans becomes
  obtain ⟨esp, s', lines', done, settles⟩ := (inv.becomes asleep placed).toNext regs
  have steady := (steady_pushQueue pushed).trans (steady_toNext done)
  refine ⟨esp, s', lines', ?_, ?_, ?_, ?_, steady⟩
  · simp only [semaphoreAcquire, short, if_false, Option.bind_eq_bind]
    erw [pushed]
    exact done
  · refine settles.after (fun k outside => ?_) (asleep.quiet.attached idle) (by simp)
    simp only [List.mem_cons, not_or] at outside
    exact Function.update_of_ne outside.2.1 _ _
  · rw [settles.others (.waiting sem) (by simp), Function.update_self]
  · rw [steady.wanted, proc_modify_self]

theorem Inv.release (inv : s.Inv idle listed lines place (some s.currentProcess)) (sem : S) (count : BitVec 32) :
    ∃ s' front back, s.semaphoreRelease sem count = some s' ∧
      Settles s s' idle listed lines (released lines (.waiting sem) front back) [.ready, .waiting sem] ∧
      Serves s s' lines sem (s.semCount sem + count) front back := by
  obtain ⟨s', front, back, done, serves⟩ := inv.linked.semaphoreRelease sem count
  have nodup : (front ++ back).Nodup := serves.line ▸ (inv.linked.holds (.waiting sem)).seg.nodup
  have placed := inv.placed.release (by simp) (by simp) serves.line nodup
  refine ⟨s', front, back, done, inv.settles serves.becomes placed fun k outside => ?_, serves⟩
  simp only [List.mem_cons, not_or] at outside
  rw [released, Function.update_of_ne outside.1, Function.update_of_ne outside.2.1]

/-! ## Killing -/

theorem Inv.kill (inv : s.Inv idle listed lines place (some s.currentProcess)) (regs : Regs) (exitCode : BitVec 32) :
    ∃ esp s' lines', s.schedulerKillProcess regs exitCode = some (esp, s') ∧
      Settles s s' idle listed lines lines' [.ready, .delete] := by
  by_cases isFirst : (s.proc s.currentProcess).id = 1
  · exact ⟨regs.addr, s, lines, by simp [schedulerKillProcess, isFirst], ⟨place, inv⟩, fun _ _ => rfl, rfl⟩
  · have notIdle : s.currentProcess ≠ idle := fun same => isFirst (same ▸ inv.id)
    have own := attachments_of_ne notIdle s
    have free := inv.placed.running_free
    have outsideBoth : ∀ l m : List Addr, ∀ k : QueueId S, k ∉ [QueueId.ready, QueueId.delete] →
        Function.update (Function.update lines .ready l) .delete m k = lines k := by
      intro l m k outside
      simp only [List.mem_cons, not_or] at outside
      rw [Function.update_of_ne outside.2.1, Function.update_of_ne outside.1]
    cases parent : (s.proc s.currentProcess).attachedFrom with
    | none =>
        obtain ⟨t, pushed, becomes⟩ := inv.linked.pushQueue free .delete
        have placed := inv.placed.kill notIdle (l := lines .ready) fun r => by simp [own, parent]
        rw [Function.update_eq_self] at placed
        obtain ⟨esp, s', lines', done, settles⟩ := (inv.becomes becomes placed).toNext regs
        refine ⟨esp, s', lines', ?_, settles.after (fun k outside => ?_) (becomes.quiet.attached idle) (by simp)⟩
        · simp only [schedulerKillProcess, isFirst, if_false, parent, Option.bind_eq_bind, Option.bind_some, pushed]
          exact done
        · simp only [List.mem_cons, not_or] at outside
          exact Function.update_of_ne outside.2.1 _ _
    | some q =>
        -- the parent waits for this child, so it is in no queue
        have current := (inv.placed.running s.currentProcess).mp rfl
        have attached : s.attachments idle s.currentProcess = some q := own.trans parent
        have qListed := inv.placed.closed _ current.1 notIdle (by simp [current.2]) q attached
        have waits : place q = .attached s.currentProcess :=
          (inv.placed.waits q qListed _).mpr ⟨current.1, by simp [current.2], attached⟩
        have qFree : ∀ j, q ∉ lines j := by
          intro j inside
          have := ((inv.placed.queued j q).mp inside).2
          rw [waits] at this
          cases this
        have other : s.currentProcess ≠ q := by
          intro same
          rw [← same, current.2] at waits
          cases waits
        have marked := inv.linked.modify (f := fun r => { r with receivedExitCode := exitCode })
          ⟨fun _ => rfl, fun _ => rfl, fun _ => rfl, fun _ => rfl, fun _ => rfl⟩ q
        obtain ⟨t, woken, first⟩ := marked.linked.schedulerPushReady qFree
        have freeNow : ∀ j, s.currentProcess ∉ Function.update lines .ready (lines .ready ++ [q]) j := by
          intro j
          by_cases atReady : j = .ready
          · subst atReady
            simpa [other] using free .ready
          · rw [Function.update_of_ne atReady]
            exact free j
        have sameCurrent : t.currentProcess = s.currentProcess := first.current
        obtain ⟨u, pushed, second⟩ := first.linked.pushQueue freeNow .delete
        have placed := inv.placed.kill notIdle (l := lines .ready ++ [q]) fun r => by
          simp only [attached, List.mem_append, List.mem_singleton, Option.some.injEq]
          grind
        rw [Function.update_of_ne (by simp)] at second
        have dead := (marked.trans first).trans second
        obtain ⟨esp, s', lines', done, settles⟩ := (inv.becomes dead placed).toNext regs
        refine ⟨esp, s', lines', ?_, settles.after (outsideBoth _ _) (dead.quiet.attached idle) (by simp)⟩
        simp only [schedulerKillProcess, isFirst, if_false, parent, Option.bind_eq_bind, woken, Option.bind_some,
          sameCurrent, pushed]
        exact done

/-! ## New processes -/

theorem Linked.addProcess (linked : s.Linked lines) (registered : s.Registered idle listed) (unlisted : p ∉ listed)
    (free : ∀ j, p ∉ lines j) :
    ∃ s', s.schedulerAddProcess p = some s' ∧ s'.Linked (Function.update lines .ready (lines .ready ++ [p])) ∧
      s'.Registered idle (listed ++ [p]) ∧ s'.attachedOf = s.attachedOf ∧ (∀ r, (s'.proc r).id = (s.proc r).id) ∧
      s'.currentProcess = s.currentProcess := by
  have marked := linked.modify (f := fun r => { r with state := .ready })
    ⟨fun _ => rfl, fun _ => rfl, fun _ => rfl, fun _ => rfl, fun _ => rfl⟩ p
  obtain ⟨listedNow, relists⟩ := (registered.quiet marked.quiet).push unlisted
  obtain ⟨s', pushed, becomes⟩ := (relists.linked marked.linked).pushQueue free .ready
  refine ⟨s', pushed, becomes.linked, listedNow.quiet becomes.quiet, ?_, ?_, ?_⟩
  · funext r
    rw [attachedOf, becomes.quiet.attached, relists.attached, marked.quiet.attached, attachedOf]
  · intro r
    rw [becomes.quiet.id, relists.id, marked.quiet.id]
  · rw [becomes.current, relists.current, marked.current]

omit [DecidableEq S] in
theorem attachedOf_modify (s : Scheduler S) (p : Addr) (change : Process → Process) :
    (s.modify p change).attachedOf = Function.update s.attachedOf p (change (s.proc p)).attachedFrom := by
  funext r
  by_cases same : r = p
  · subst same
    rw [attachedOf, proc_modify_self, Function.update_self]
  · rw [attachedOf, proc_modify_ne same, Function.update_of_ne same, attachedOf]

omit [DecidableEq S] in
theorem attachments_of_update {parent : Option Addr} (other : p ≠ idle)
    (attached : s'.attachedOf = Function.update s.attachedOf p parent) :
    s'.attachments idle = Function.update (s.attachments idle) p parent := by
  rw [attachments, attached, attachments, Function.update_comm other]

omit [DecidableEq S] in
theorem attachments_idle (s : Scheduler S) (idle p : Addr) : s.attachments idle idle ≠ some p := by
  rw [attachments, Function.update_self]
  nofun

theorem Inv.add (inv : s.Inv idle listed lines place (some s.currentProcess)) (unlisted : p ∉ listed)
    {record : Process} (single : record.attachedFrom = none) :
    ∃ s' lines', (s.modify p fun _ => record).schedulerAddProcess p = some s' ∧
      Settles s s' idle (listed ++ [p]) lines lines' [.ready] := by
  have free := inv.unlisted_free unlisted
  obtain ⟨s', added, linked, registered, attached, id, current⟩ :=
    (inv.linked.fresh free fun _ => record).addProcess (inv.registered.fresh unlisted _) unlisted free
  have idleOld : idle ≠ p := fun same => unlisted (same ▸ inv.placed.idleListed)
  have attachedNow : s'.attachedOf = Function.update s.attachedOf p none := by
    rw [attached, attachedOf_modify, single]
  have placed := inv.placed.add unlisted (attachments_idle s idle p)
  rw [← attachments_of_update idleOld.symm attachedNow] at placed
  have idleId : (s'.proc idle).id = 1 := by
    rw [id, proc_modify_ne idleOld, inv.id]
  have sameCurrent : s'.currentProcess = s.currentProcess := current
  refine ⟨s', _, added, ⟨_, linked, registered, by rw [sameCurrent]; exact placed, idleId⟩, fun k outside => ?_, ?_⟩
  · exact Function.update_of_ne (by simpa using outside) _ _
  · rw [attachedNow, Function.update_of_ne idleOld]

theorem Inv.attach (inv : s.Inv idle listed lines place (some s.currentProcess)) (notIdle : s.currentProcess ≠ idle)
    (unlisted : p ∉ listed) {regs : Regs} (kernel : regs.cs &&& 3#32 = 0#32) (record : Process) :
    ∃ esp s' lines', (s.modify p fun _ => record).schedulerAttach regs p = some (esp, s') ∧
      Settles s s' idle (listed ++ [p]) lines lines' [.ready] ∧
      ∃ change, Steady (s.modify p fun _ => change) s' := by
  have free := inv.unlisted_free unlisted
  have idleOld : idle ≠ p := fun same => unlisted (same ▸ inv.placed.idleListed)
  obtain ⟨u, added, linked, registered, attached, id, current⟩ :=
    ((inv.linked.fresh free fun _ => record).fresh free
      fun r => { r with attachedFrom := some s.currentProcess }).addProcess
      ((inv.registered.fresh unlisted _).fresh unlisted _) unlisted free
  have attachedNow : u.attachedOf = Function.update s.attachedOf p (some s.currentProcess) := by
    rw [attached, attachedOf_modify, attachedOf_modify, Function.update_idem]
  have placed := inv.placed.attach notIdle unlisted (attachments_idle s idle p)
  rw [← attachments_of_update idleOld.symm attachedNow] at placed
  have idleId : (u.proc idle).id = 1 := by
    rw [id, proc_modify_ne idleOld, proc_modify_ne idleOld, inv.id]
  obtain ⟨esp, s', lines', done, settles⟩ := (Inv.mk linked registered placed idleId).toNext regs
  refine ⟨esp, s', lines', ?_, settles.after (fun k outside => ?_) ?_ (by simp), record, ?_⟩
  · simp only [schedulerAttach, kernel, ne_eq, not_true, if_false, Option.bind_eq_bind]
    rw [show (s.modify p fun _ => record).currentProcess = s.currentProcess from rfl, added]
    exact done
  · exact Function.update_of_ne (by simpa using outside) _ _
  · rw [attachedNow, Function.update_of_ne idleOld]
  · have marked := steady_modify (f := fun r => { r with attachedFrom := some s.currentProcess }) (fun _ => rfl)
      (fun _ => rfl) (s.modify p fun _ => record) p
    exact (marked.trans (steady_schedulerAddProcess added)).trans (steady_toNext done)

/-! ## The timer interrupt -/

/-- The dead processes are given up, then the sleepers that are due wake up. -/
structure Ticks (s s' : Scheduler S) (lines lines' : QueueId S → List Addr) : Prop where
  wakes : ∃ t u front back, deleteLoop (s.queue .delete).size s = some (lines .delete, t) ∧
    t.Linked (Function.update lines .delete []) ∧ Steady s t ∧ t.wakeSleepers = some u ∧
    Wakes t u (Function.update lines .delete []) front back ∧ Steady u s' ∧ lines' .sleep = back

theorem Inv.switch (inv : s.Inv idle listed lines place (some s.currentProcess)) (regs : Regs) :
    ∃ esp s' lines', s.schedulerSwitch regs = some (lines .delete, esp, s') ∧
      Settles s s' idle (listed.filter (· ∉ lines .delete)) lines lines' [.ready, .delete, .sleep] ∧
      Ticks s s' lines lines' := by
  have members : ∀ r ∈ lines .delete, r ∈ listed ∧ r ≠ idle := by
    intro r inside
    obtain ⟨member, deleted⟩ := (inv.placed.queued .delete r).mp inside
    refine ⟨member, ?_⟩
    rintro rfl
    rcases inv.placed.idleRuns with h | h <;> rw [h] at deleted <;> cases deleted
  obtain ⟨t, deleted, linked, registered, attached, id, current⟩ :=
    deleteLoop_spec inv.linked inv.registered members (le_of_eq (inv.linked.holds .delete).size.symm)
  have placed := inv.placed.delete
  rw [← attachments_congr (show t.attachedOf = s.attachedOf from funext attached), ← current] at placed
  have afterDelete := Inv.mk linked registered placed ((id idle).trans inv.id)
  obtain ⟨u, front, back, woke, wakes⟩ := linked.wakeSleepers
  have nodup : (front ++ back).Nodup := wakes.line ▸ (linked.holds .sleep).seg.nodup
  have afterWake := afterDelete.becomes wakes.becomes (afterDelete.placed.release (by simp) (by simp) wakes.line nodup)
  have ticked := wakes.becomes.linked.modify
    (f := fun r => { r with aliveTicks := r.aliveTicks + 1#64, savedEsp := regs.addr })
    ⟨fun _ => rfl, fun _ => rfl, fun _ => rfl, fun _ => rfl, fun _ => rfl⟩ u.currentProcess
  have counted := steady_modify (f := fun r => { r with aliveTicks := r.aliveTicks + 1#64, savedEsp := regs.addr })
    (fun _ => rfl) (fun _ => rfl) u u.currentProcess
  have afterTick := afterWake.becomes ticked afterWake.placed
  set v := u.modify u.currentProcess fun r => { r with aliveTicks := r.aliveTicks + 1#64, savedEsp := regs.addr } with vDef
  have same : t.currentProcess = v.currentProcess := by
    rw [ticked.current, wakes.becomes.current]
  rw [same] at afterTick
  have vAttached : v.attachedOf idle = s.attachedOf idle := by
    rw [attachedOf, ticked.quiet.attached, wakes.becomes.quiet.attached, attached, attachedOf]
  have others : ∀ k, k ∉ [QueueId.ready, QueueId.delete, QueueId.sleep] →
      released (Function.update lines .delete []) .sleep front back k = lines k := by
    intro k outside
    simp only [List.mem_cons, not_or] at outside
    rw [released, Function.update_of_ne outside.1, Function.update_of_ne outside.2.2.1, Function.update_of_ne outside.2.1]
  have sleepers : released (Function.update lines .delete []) .sleep front back .sleep = back := by
    simp [released]
  have steadyT := steady_deleteLoop deleted
  by_cases expired : (v.proc v.currentProcess).aliveTicks % processAliveTicks = 0#64
  · obtain ⟨esp, s', lines', done, settles⟩ := afterTick.yield regs
    refine ⟨esp, s', lines', ?_, settles.after others vAttached (by simp), t, u, front, back, deleted, linked, steadyT,
      woke, wakes, counted.trans (steady_toNext done), ?_⟩
    · simp only [schedulerSwitch, deleted, Option.bind_eq_bind, Option.bind_some, woke, ← vDef, expired, if_true, done]
      rfl
    · rw [settles.others .sleep (by simp), sleepers]
  · refine ⟨(v.proc v.currentProcess).savedEsp, v, _, ?_, ⟨⟨_, afterTick⟩, others, vAttached⟩, t, u, front, back, deleted,
      linked, steadyT, woke, wakes, counted, sleepers⟩
    simp only [schedulerSwitch, deleted, Option.bind_eq_bind, Option.bind_some, woke, ← vDef, expired, if_false]
    rfl

end Scheduler
/-! ## Runs -/

inductive SchedCall (S : Type) where
  | add (proc : Addr) (record : Process)
  | yield (regs : Regs)
  | sleep (regs : Regs) (ticks : BitVec 32)
  | kill (regs : Regs) (exitCode : BitVec 32)
  | attach (regs : Regs) (proc : Addr) (record : Process)
  | acquire (regs : Regs) (sem : S) (count : BitVec 32)
  | release (sem : S) (count : BitVec 32)
  | switch (regs : Regs)

/-- A scheduler with the processes added to it and not yet given to `process_delete`. -/
structure Running (S : Type) where
  sched : Scheduler S
  live : List Addr

namespace Running
variable {S : Type} [DecidableEq S]

def exec (r : Running S) : SchedCall S → Option (Running S)
  | .add p record => ((r.sched.modify p fun _ => record).schedulerAddProcess p).map fun s => ⟨s, r.live ++ [p]⟩
  | .yield regs => (r.sched.schedulerToNextProcess regs true).map fun (_, s) => ⟨s, r.live⟩
  | .sleep regs ticks => (r.sched.schedulerSetSleep regs ticks).map fun (_, s) => ⟨s, r.live⟩
  | .kill regs exitCode => (r.sched.schedulerKillProcess regs exitCode).map fun (_, s) => ⟨s, r.live⟩
  | .attach regs p record =>
      ((r.sched.modify p fun _ => record).schedulerAttach regs p).map fun (_, s) => ⟨s, r.live ++ [p]⟩
  | .acquire regs sem count => (r.sched.semaphoreAcquire regs sem count).map fun (_, s) => ⟨s, r.live⟩
  | .release sem count => (r.sched.semaphoreRelease sem count).map fun s => ⟨s, r.live⟩
  | .switch regs => (r.sched.schedulerSwitch regs).map fun (deleted, _, s) => ⟨s, r.live.filter (· ∉ deleted)⟩

/-- New processes are fresh from `process_new`; the idle process never sleeps, blocks or attaches;
attaching is done from kernel mode. -/
def Legal (idle : Addr) (r : Running S) : SchedCall S → Prop
  | .add p record => p ∉ r.live ∧ record.attachedFrom = none
  | .attach regs p _ => p ∉ r.live ∧ regs.cs &&& 3#32 = 0#32 ∧ r.sched.currentProcess ≠ idle
  | .sleep _ _ => r.sched.currentProcess ≠ idle
  | .acquire _ sem count => r.sched.currentProcess ≠ idle ∨ r.sched.semCount sem ≥ count
  | .yield _ | .kill _ _ | .release _ _ | .switch _ => True

def scheduling (idle : Addr) : Machine (Running S) (SchedCall S) where
  Legal := Legal idle
  step := exec

/-! ## The effect of a call -/

open Scheduler

def SleepEffect (s s' : Scheduler S) (lines lines' : QueueId S → List Addr) : SchedCall S → Prop
  | .sleep _ ticks =>
      FallsAsleep s s' lines lines' (ticks.setWidth 64 + s.globalSleepTicks) ∧ s'.globalSleepTicks = s.globalSleepTicks
  | .switch _ => Ticks s s' lines lines'
  | _ => lines' .sleep = lines .sleep ∧ s'.globalSleepTicks = s.globalSleepTicks

def Bypassed (s s' : Scheduler S) (lines lines' : QueueId S → List Addr) (sem : S) : Prop :=
  lines' (.waiting sem) = lines (.waiting sem) ∧ s'.semCount sem = s.semCount sem

def WaitEffect (s s' : Scheduler S) (lines lines' : QueueId S → List Addr) (sem : S) : SchedCall S → Prop
  | .acquire _ used count =>
      if used = sem then
        if s.semCount sem ≥ count then
          lines' (.waiting sem) = lines (.waiting sem) ∧ s'.semCount sem = s.semCount sem - count
        else Blocks s s' lines lines' sem count
      else Bypassed s s' lines lines' sem
  | .release used count =>
      if used = sem then
        ∃ front back, Serves s s' lines sem (s.semCount sem + count) front back ∧
          lines' = released lines (.waiting sem) front back
      else Bypassed s s' lines lines' sem
  | _ => Bypassed s s' lines lines' sem

structure Effect (s s' : Scheduler S) (lines lines' : QueueId S → List Addr) (call : SchedCall S) : Prop where
  sleepTicks : ∀ k, ∀ r ∈ lines k, (s'.proc r).sleepTicks = (s.proc r).sleepTicks
  wanted : ∀ k, ∀ r ∈ lines k, (s'.proc r).waitingForResourceCount = (s.proc r).waitingForResourceCount
  sleepers : SleepEffect s s' lines lines' call
  waiters : ∀ sem, WaitEffect s s' lines lines' sem call

variable {s s' : Scheduler S} {idle : Addr} {listed : List Addr} {lines lines' : QueueId S → List Addr}
  {touched : List (QueueId S)}

omit [DecidableEq S] in
theorem bypassed (settles : Settles s s' idle listed lines lines' touched) (steady : s'.semCount = s.semCount) {sem : S}
    (outside : .waiting sem ∉ touched) : Bypassed s s' lines lines' sem :=
  ⟨settles.others _ outside, by rw [steady]⟩

omit [DecidableEq S] in
theorem quiet_effect (settles : Settles s s' idle listed lines lines' touched) (steady : Steady s s')
    (subset : touched ⊆ [.ready, .delete]) :
    (∀ k, ∀ r ∈ lines k, (s'.proc r).sleepTicks = (s.proc r).sleepTicks) ∧
    (∀ k, ∀ r ∈ lines k, (s'.proc r).waitingForResourceCount = (s.proc r).waitingForResourceCount) ∧
    (lines' .sleep = lines .sleep ∧ s'.globalSleepTicks = s.globalSleepTicks) ∧
    ∀ sem, Bypassed s s' lines lines' sem := by
  refine ⟨fun _ r _ => steady.sleepTicks r, fun _ r _ => steady.wanted r, ⟨settles.others _ fun inside => ?_, steady.ticks⟩,
    fun sem => bypassed settles steady.semCount fun inside => ?_⟩
  · simpa using subset inside
  · simpa using subset inside

omit [DecidableEq S] in
theorem fresh_effect {p : Addr} {record : Process} (settles : Settles s s' idle listed lines lines' [.ready])
    (steady : Steady (s.modify p fun _ => record) s') (free : ∀ k, p ∉ lines k) :
    (∀ k, ∀ r ∈ lines k, (s'.proc r).sleepTicks = (s.proc r).sleepTicks) ∧
    (∀ k, ∀ r ∈ lines k, (s'.proc r).waitingForResourceCount = (s.proc r).waitingForResourceCount) ∧
    (lines' .sleep = lines .sleep ∧ s'.globalSleepTicks = s.globalSleepTicks) ∧
    ∀ sem, Bypassed s s' lines lines' sem := by
  have other : ∀ k, ∀ r ∈ lines k, r ≠ p := by
    rintro k r member rfl
    exact free k member
  refine ⟨fun k r member => ?_, fun k r member => ?_, ⟨settles.others _ (by simp), steady.ticks⟩,
    fun sem => bypassed settles steady.semCount (by simp)⟩
  · rw [steady.sleepTicks, proc_modify_ne (other k r member)]
  · rw [steady.wanted, proc_modify_ne (other k r member)]

theorem exec_effect {r : Running S} {place : Addr → Place S} (inv : r.sched.Inv idle r.live lines place (some r.sched.currentProcess))
    {c : SchedCall S} (legal : r.Legal idle c) :
    ∃ t lines', r.exec c = some t ∧ (∃ place', t.sched.Inv idle t.live lines' place' (some t.sched.currentProcess)) ∧
      t.sched.attachedOf idle = r.sched.attachedOf idle ∧ Effect r.sched t.sched lines lines' c := by
  cases c with
  | add p record =>
      obtain ⟨s, lines', done, settles⟩ := inv.add legal.1 legal.2
      obtain ⟨ticks, wanted, sleepers, waiters⟩ := fresh_effect settles (steady_schedulerAddProcess done)
        (inv.unlisted_free legal.1)
      exact ⟨⟨s, r.live ++ [p]⟩, lines', by simp only [exec, done, Option.map_some], settles.sound, settles.idleAttached,
        ticks, wanted, sleepers, waiters⟩
  | yield regs =>
      obtain ⟨esp, s, lines', done, settles⟩ := inv.yield regs
      obtain ⟨ticks, wanted, sleepers, waiters⟩ := quiet_effect settles (steady_toNext done) (by simp)
      exact ⟨⟨s, r.live⟩, lines', by simp only [exec, done, Option.map_some], settles.sound, settles.idleAttached,
        ticks, wanted, sleepers, waiters⟩
  | sleep regs ticks =>
      obtain ⟨esp, s, lines', done, settles, asleep, steady⟩ := inv.sleep legal regs ticks
      refine ⟨⟨s, r.live⟩, lines', by simp only [exec, done, Option.map_some], settles.sound, settles.idleAttached,
        fun k q member => ?_, fun k q member => ?_, ⟨asleep, steady.ticks⟩,
        fun sem => bypassed settles steady.semCount (by simp)⟩
      · rw [steady.sleepTicks, markAsleep, proc_modify_ne (inv.not_current member)]
      · rw [steady.wanted, markAsleep, proc_modify_ne (inv.not_current member)]
  | kill regs exitCode =>
      obtain ⟨esp, s, lines', done, settles⟩ := inv.kill regs exitCode
      obtain ⟨ticks, wanted, sleepers, waiters⟩ := quiet_effect settles (steady_schedulerKillProcess done) (by simp)
      exact ⟨⟨s, r.live⟩, lines', by simp only [exec, done, Option.map_some], settles.sound, settles.idleAttached,
        ticks, wanted, sleepers, waiters⟩
  | attach regs p record =>
      obtain ⟨esp, s, lines', done, settles, change, steady⟩ := inv.attach legal.2.2 legal.1 legal.2.1 record
      obtain ⟨ticks, wanted, sleepers, waiters⟩ := fresh_effect settles steady (inv.unlisted_free legal.1)
      exact ⟨⟨s, r.live ++ [p]⟩, lines', by simp only [exec, done, Option.map_some], settles.sound, settles.idleAttached,
        ticks, wanted, sleepers, waiters⟩
  | acquire regs sem count =>
      by_cases enough : r.sched.semCount sem ≥ count
      · have settles := inv.granted sem (r.sched.semCount sem - count)
        refine ⟨⟨r.sched.withSemCount sem (r.sched.semCount sem - count), r.live⟩, lines,
          by simp [exec, semaphoreAcquire, enough], settles.sound, settles.idleAttached, fun _ _ _ => rfl, fun _ _ _ => rfl,
          ⟨rfl, rfl⟩, fun used => ?_⟩
        simp only [WaitEffect]
        by_cases same : sem = used
        · subst same
          rw [if_pos rfl, if_pos enough]
          exact ⟨trivial, Function.update_self _ _ _⟩
        · rw [if_neg same]
          exact ⟨rfl, Function.update_of_ne (Ne.symm same) _ _⟩
      · obtain ⟨esp, s, lines', done, settles, blocks⟩ := inv.blocked regs sem count (legal.resolve_right enough) enough
        have steady := blocks.steady
        refine ⟨⟨s, r.live⟩, lines', by simp only [exec, done, Option.map_some], settles.sound, settles.idleAttached,
          fun k q member => ?_, fun k q member => ?_, ⟨settles.others _ (by simp), steady.ticks⟩, fun used => ?_⟩
        · rw [steady.sleepTicks, proc_modify_ne (inv.not_current member)]
        · rw [steady.wanted, proc_modify_ne (inv.not_current member)]
        · simp only [WaitEffect]
          by_cases same : sem = used
          · subst same
            rw [if_pos rfl, if_neg enough]
            exact blocks
          · rw [if_neg same]
            exact bypassed settles steady.semCount (by simp [Ne.symm same])
  | release sem count =>
      obtain ⟨s, front, back, done, settles, serves⟩ := inv.release sem count
      refine ⟨⟨s, r.live⟩, _, by simp only [exec, done, Option.map_some], settles.sound, settles.idleAttached,
        fun _ q _ => serves.requests.sleepTicks q, fun _ q _ => serves.requests.wanted q,
        ⟨settles.others _ (by simp), serves.ticks⟩, fun used => ?_⟩
      simp only [WaitEffect]
      by_cases same : sem = used
      · subst same
        rw [if_pos rfl]
        exact ⟨front, back, serves, rfl⟩
      · rw [if_neg same]
        refine ⟨settles.others _ (by simp [Ne.symm same]), ?_⟩
        rw [serves.semCount, Function.update_of_ne (Ne.symm same)]
  | switch regs =>
      obtain ⟨esp, s, lines', done, settles, ticks⟩ := inv.switch regs
      obtain ⟨t, u, front, back, deleted, linked, before, woke, wakes, after, line⟩ := ticks.wakes
      have requests := (before.toSameRequests.trans wakes.requests).trans after.toSameRequests
      refine ⟨⟨s, r.live.filter (· ∉ lines .delete)⟩, lines', by simp only [exec, done, Option.map_some], settles.sound,
        settles.idleAttached, fun _ q _ => requests.sleepTicks q, fun _ q _ => requests.wanted q, ticks,
        fun sem => bypassed settles ?_ (by simp)⟩
      rw [after.semCount, wakes.semCount, before.semCount]

theorem exec_sound {r : Running S} (sound : r.sched.Sound idle r.live) {call : SchedCall S} (legal : r.Legal idle call) :
    ∃ t, r.exec call = some t ∧ t.sched.Sound idle t.live ∧ t.sched.attachedOf idle = r.sched.attachedOf idle := by
  obtain ⟨lines, place, inv⟩ := sound
  obtain ⟨t, lines', done, kept, attached, _⟩ := exec_effect inv legal
  exact ⟨t, done, ⟨lines', kept⟩, attached⟩

/-! ## The start -/

def initial (proc : Heap) (semCount : S → BitVec 32) (idle : Addr) (pageDirectory tssStack : BitVec 32) : Running S :=
  ⟨Scheduler.schedulerInit proc semCount idle pageDirectory tssStack, [idle]⟩

omit [DecidableEq S] in
theorem initial_inv (proc : Heap) (semCount : S → BitVec 32) (idle : Addr) (pageDirectory tssStack : BitVec 32)
    (isIdle : (proc idle).id = 1) :
    (initial proc semCount idle pageDirectory tssStack).sched.Inv idle [idle] (fun _ => []) (fun _ => .current)
      (some idle) := by
  refine ⟨⟨fun k => ⟨rfl, by simp, rfl⟩, by simp⟩, ?_, ?_, ?_⟩
  · refine ⟨⟨⟨rfl, ?_⟩, ?_, trivial⟩, rfl, rfl, rfl⟩
    · simp [initial, Scheduler.schedulerInit]
    · simp [initial, Scheduler.schedulerInit]
  · refine ⟨by simp, fun p => ?_, fun p member q => ?_, ?_, List.mem_singleton_self idle, .inl rfl⟩
    · simp [eq_comm]
    · cases List.mem_singleton.mp member
      refine ⟨by rintro ⟨⟩, fun ⟨listed, _, attached⟩ => ?_⟩
      cases List.mem_singleton.mp listed
      exact absurd attached (attachments_idle _ _ _)
    · intro q member other
      exact absurd (List.mem_singleton.mp member) other
  · simpa [initial, Scheduler.schedulerInit] using isIdle

omit [DecidableEq S] in
theorem initial_sound (proc : Heap) (semCount : S → BitVec 32) (idle : Addr) (pageDirectory tssStack : BitVec 32)
    (isIdle : (proc idle).id = 1) :
    (initial proc semCount idle pageDirectory tssStack).sched.Sound idle [idle] :=
  ⟨_, _, initial_inv proc semCount idle pageDirectory tssStack isIdle⟩

theorem sound_of_reaches {start r : Running S} (sound : start.sched.Sound idle start.live)
    (run : (scheduling idle).Reaches start r) : r.sched.Sound idle r.live := by
  refine run.invariant (I := fun r => r.sched.Sound idle r.live) ?_ sound
  intro r call t sound legal step
  obtain ⟨u, done, kept, _⟩ := exec_sound sound legal
  have same : some u = some t := done.symm.trans step
  cases same
  exact kept

end Running
end Kerosene.Sched
