import Kerosene.Sched.Scheduler
import Mathlib.Data.BitVec
import Mathlib.Data.List.Chain
import Mathlib.Tactic.Ring

/-!
# The queues of the scheduler as lists

`lines` gives the processes of every queue in order. The lemmas here say what each function does to
them; all but the deletion loop are quiet: they touch neither the global list nor `attached_from`.
-/

namespace Kerosene.Sched.Scheduler
open Lib
variable {S : Type} {s s' : Scheduler S} {lines : QueueId S → List Addr} {p : Addr}

structure Linked (s : Scheduler S) (lines : QueueId S → List Addr) : Prop where
  holds : ∀ k, Holds s.proc (s.queue k) (lines k)
  apart : ∀ j k, j ≠ k → ∀ p, p ∈ lines j → p ∉ lines k

theorem Linked.members (linked : s.Linked lines) (k : QueueId S) : s.members k = lines k := (linked.holds k).walk

structure Quiet (s s' : Scheduler S) : Prop where
  id : ∀ r, (s'.proc r).id = (s.proc r).id
  attached : ∀ r, (s'.proc r).attachedFrom = (s.proc r).attachedFrom
  next : ∀ r, (s'.proc r).globalNext = (s.proc r).globalNext
  prev : ∀ r, (s'.proc r).globalPrev = (s.proc r).globalPrev
  bottom : s'.globalListBottom = s.globalListBottom
  size : s'.globalListSize = s.globalListSize

theorem Quiet.refl (s : Scheduler S) : Quiet s s :=
  ⟨fun _ => rfl, fun _ => rfl, fun _ => rfl, fun _ => rfl, rfl, rfl⟩

theorem Quiet.trans {s₁ s₂ s₃ : Scheduler S} (first : Quiet s₁ s₂) (second : Quiet s₂ s₃) : Quiet s₁ s₃ :=
  ⟨fun r => (second.id r).trans (first.id r), fun r => (second.attached r).trans (first.attached r),
    fun r => (second.next r).trans (first.next r),
    fun r => (second.prev r).trans (first.prev r), second.bottom.trans first.bottom,
    second.size.trans first.size⟩

/-- After a quiet function: the new lines, and the process that was current still is. -/
structure Becomes (s s' : Scheduler S) (lines : QueueId S → List Addr) (current : Addr) : Prop where
  linked : s'.Linked lines
  quiet : Quiet s s'
  current : s'.currentProcess = current

theorem Becomes.trans {s₁ s₂ s₃ : Scheduler S} {first second : QueueId S → List Addr} {c d : Addr}
    (left : Becomes s₁ s₂ first c) (right : Becomes s₂ s₃ second d) : Becomes s₁ s₃ second d :=
  ⟨right.linked, left.quiet.trans right.quiet, right.current⟩

/-! ## Fields that scheduling does not follow -/

/-- A change of a process that keeps all its links. -/
structure KeepsLinks (change : Process → Process) : Prop where
  queueNext : ∀ r, (change r).queueNext = r.queueNext
  id : ∀ r, (change r).id = r.id
  attachedFrom : ∀ r, (change r).attachedFrom = r.attachedFrom
  globalNext : ∀ r, (change r).globalNext = r.globalNext
  globalPrev : ∀ r, (change r).globalPrev = r.globalPrev

theorem modify_field {β : Type} (field : Process → β) {change : Process → Process}
    (keeps : ∀ r, field (change r) = field r) (s : Scheduler S) (p r : Addr) :
    field ((s.modify p change).proc r) = field (s.proc r) := by
  by_cases same : r = p
  · subst same
    simp [modify, keeps]
  · simp [modify, same]

theorem Linked.congr (linked : s.Linked lines) (next : ∀ r, s'.proc.next r = s.proc.next r)
    (queue : s'.queue = s.queue) : s'.Linked lines := by
  refine ⟨fun k => ?_, linked.apart⟩
  rw [queue]
  have holds := linked.holds k
  exact ⟨holds.seg.congr fun r _ => next r, holds.bottom, holds.size⟩

theorem Linked.modify (linked : s.Linked lines) {f : Process → Process} (keeps : KeepsLinks f) (p : Addr) :
    Becomes s (s.modify p f) lines s.currentProcess :=
  ⟨linked.congr (modify_field Process.queueNext keeps.queueNext s p) rfl,
    ⟨modify_field Process.id keeps.id s p, modify_field Process.attachedFrom keeps.attachedFrom s p,
      modify_field Process.globalNext keeps.globalNext s p, modify_field Process.globalPrev keeps.globalPrev s p, rfl, rfl⟩, rfl⟩

theorem Linked.withSleepTicks (linked : s.Linked lines) (ticks : BitVec 64) :
    Becomes s (s.withSleepTicks ticks) lines s.currentProcess :=
  ⟨linked.congr (fun _ => rfl) rfl, ⟨fun _ => rfl, fun _ => rfl, fun _ => rfl, fun _ => rfl, rfl, rfl⟩, rfl⟩

theorem Linked.activate (linked : s.Linked lines) (p : Addr) : Becomes s (s.activate p).2 lines p := by
  have modified := linked.modify (f := fun r => { r with state := .active }) ⟨fun _ => rfl, fun _ => rfl,
    fun _ => rfl, fun _ => rfl, fun _ => rfl⟩ p
  exact ⟨modified.linked.congr (fun _ => rfl) rfl, ⟨modified.quiet.id, modified.quiet.attached,
    modified.quiet.next, modified.quiet.prev, rfl, rfl⟩, rfl⟩

theorem Linked.saveEsp (linked : s.Linked lines) (esp : BitVec 32) :
    Becomes s (s.modify s.currentProcess fun r => { r with savedEsp := esp }) lines s.currentProcess :=
  linked.modify (f := fun r => { r with savedEsp := esp }) ⟨fun _ => rfl, fun _ => rfl, fun _ => rfl,
    fun _ => rfl, fun _ => rfl⟩ s.currentProcess

variable [DecidableEq S]

theorem Linked.withSemCount (linked : s.Linked lines) (sem : S) (count : BitVec 32) :
    Becomes s (s.withSemCount sem count) lines s.currentProcess :=
  ⟨linked.congr (fun _ => rfl) rfl, ⟨fun _ => rfl, fun _ => rfl, fun _ => rfl, fun _ => rfl, rfl, rfl⟩, rfl⟩

/-! ## What the processes asked for -/

structure SameRequests (s s' : Scheduler S) : Prop where
  sleepTicks : ∀ r, (s'.proc r).sleepTicks = (s.proc r).sleepTicks
  wanted : ∀ r, (s'.proc r).waitingForResourceCount = (s.proc r).waitingForResourceCount

structure Steady (s s' : Scheduler S) : Prop extends SameRequests s s' where
  ticks : s'.globalSleepTicks = s.globalSleepTicks
  semCount : s'.semCount = s.semCount

omit [DecidableEq S] in
theorem Steady.refl (s : Scheduler S) : Steady s s := ⟨⟨fun _ => rfl, fun _ => rfl⟩, rfl, rfl⟩

omit [DecidableEq S] in
theorem SameRequests.trans {s₁ s₂ s₃ : Scheduler S} (first : SameRequests s₁ s₂) (second : SameRequests s₂ s₃) :
    SameRequests s₁ s₃ :=
  ⟨fun r => (second.sleepTicks r).trans (first.sleepTicks r), fun r => (second.wanted r).trans (first.wanted r)⟩

omit [DecidableEq S] in
theorem Steady.trans {s₁ s₂ s₃ : Scheduler S} (first : Steady s₁ s₂) (second : Steady s₂ s₃) : Steady s₁ s₃ :=
  ⟨first.toSameRequests.trans second.toSameRequests, second.ticks.trans first.ticks,
    second.semCount.trans first.semCount⟩

omit [DecidableEq S] in
theorem steady_modify {f : Process → Process} (sleepTicks : ∀ r, (f r).sleepTicks = r.sleepTicks)
    (wanted : ∀ r, (f r).waitingForResourceCount = r.waitingForResourceCount) (s : Scheduler S) (p : Addr) :
    Steady s (s.modify p f) :=
  ⟨⟨modify_field Process.sleepTicks sleepTicks s p, modify_field Process.waitingForResourceCount wanted s p⟩, rfl, rfl⟩

theorem steady_withQueue {proc : Heap} (fields : ∀ r, ∃ next, proc r = { s.proc r with queueNext := next })
    (k : QueueId S) (q : ProcessQueue) : Steady s (s.withQueue k proc q) := by
  refine ⟨⟨fun r => ?_, fun r => ?_⟩, rfl, rfl⟩
  all_goals
    obtain ⟨next, same⟩ := fields r
    simp only [Scheduler.withQueue, same]

theorem steady_pushQueue {k : QueueId S} (done : s.pushQueue k p = some s') : Steady s s' := by
  obtain ⟨⟨proc, q⟩, pushed, rfl⟩ := Option.map_eq_some_iff.mp done
  exact steady_withQueue (push_fields pushed) k q

theorem steady_popQueue (s : Scheduler S) (k : QueueId S) : Steady s (s.popQueue k).2 :=
  steady_withQueue (fun _ => ⟨_, rfl⟩) k _

theorem steady_schedulerPushReady (done : s.schedulerPushReady p = some s') : Steady s s' := by
  have marked := steady_modify (f := fun r => { r with state := .ready }) (fun _ => rfl) (fun _ => rfl) s p
  exact marked.trans (steady_pushQueue done)

omit [DecidableEq S] in
theorem steady_activate (s : Scheduler S) (p : Addr) : Steady s (s.activate p).2 := by
  have marked := steady_modify (f := fun r => { r with state := .active }) (fun _ => rfl) (fun _ => rfl) s p
  exact ⟨⟨marked.sleepTicks, marked.wanted⟩, rfl, rfl⟩

-- what `scheduler_to_next_process` does once the caller is back in its queue
def startReady (s : Scheduler S) : Option (BitVec 32 × Scheduler S) :=
  match s.popQueue .ready with
  | (none, _) => none
  | (some p, s) => some (s.activate p)

theorem steady_startReady {esp : BitVec 32} (done : s.startReady = some (esp, s')) : Steady s s' := by
  have popped := steady_popQueue s .ready
  rw [startReady] at done
  rcases found : s.popQueue .ready with ⟨p, u⟩
  rw [found] at done popped
  cases p with
  | none => cases done
  | some p =>
      cases done
      exact popped.trans (steady_activate u p)

theorem steady_toNext {regs : Regs} {back : Bool} {esp : BitVec 32}
    (done : s.schedulerToNextProcess regs back = some (esp, s')) : Steady s s' := by
  have saved := steady_modify (f := fun r => { r with savedEsp := regs.addr }) (fun _ => rfl) (fun _ => rfl) s
    s.currentProcess
  cases back with
  | false => exact saved.trans (steady_startReady done)
  | true =>
      simp only [schedulerToNextProcess, if_true, Option.bind_eq_bind, Option.bind_eq_some_iff] at done
      obtain ⟨t, pushed, done⟩ := done
      exact (saved.trans (steady_schedulerPushReady pushed)).trans (steady_startReady done)

omit [DecidableEq S] in
theorem steady_globalListPush (s : Scheduler S) (p : Addr) : Steady s (s.globalListPush p) := by
  have first := steady_modify (f := fun r => { r with globalNext := some p }) (fun _ => rfl) (fun _ => rfl) s
    s.globalListBottom
  have second := steady_modify (f := fun r => { r with globalPrev := some s.globalListBottom, globalNext := none })
    (fun _ => rfl) (fun _ => rfl) (s.modify s.globalListBottom fun r => { r with globalNext := some p }) p
  have both := first.trans second
  exact ⟨⟨both.sleepTicks, both.wanted⟩, rfl, rfl⟩

omit [DecidableEq S] in
theorem steady_globalListPop (done : s.globalListPop p = some s') : Steady s s' := by
  simp only [globalListPop, Option.bind_eq_bind, Option.bind_eq_some_iff] at done
  obtain ⟨prev, _, done⟩ := done
  cases done
  cases (s.proc p).globalNext with
  | none =>
      have first := steady_modify (f := fun r => { r with globalNext := none }) (fun _ => rfl) (fun _ => rfl) s prev
      exact ⟨⟨first.sleepTicks, first.wanted⟩, rfl, rfl⟩
  | some n =>
      have first := steady_modify (f := fun r => { r with globalNext := some n }) (fun _ => rfl) (fun _ => rfl) s prev
      have second := steady_modify (f := fun r => { r with globalPrev := some prev }) (fun _ => rfl) (fun _ => rfl)
        (s.modify prev fun r => { r with globalNext := some n }) n
      have both := first.trans second
      exact ⟨⟨both.sleepTicks, both.wanted⟩, rfl, rfl⟩

theorem steady_schedulerAddProcess (done : s.schedulerAddProcess p = some s') : Steady s s' := by
  have marked := steady_modify (f := fun r => { r with state := .ready }) (fun _ => rfl) (fun _ => rfl) s p
  exact (marked.trans (steady_globalListPush _ p)).trans (steady_pushQueue done)

theorem steady_deleteLoop {fuel : Nat} {deleted : List Addr} (done : deleteLoop fuel s = some (deleted, s')) :
    Steady s s' := by
  induction fuel generalizing s deleted with
  | zero =>
      rw [deleteLoop] at done
      split_ifs at done
      cases done
      exact .refl s'
  | succ fuel ih =>
      rw [deleteLoop] at done
      split_ifs at done
      · cases done
        exact .refl s'
      · have popped := steady_popQueue s .delete
        split at done
        · cases done
        · next p t found =>
            rw [found] at popped
            simp only [Option.bind_eq_bind, Option.bind_eq_some_iff] at done
            obtain ⟨u, removed, ⟨rest, v⟩, loop, same⟩ := done
            cases same
            exact (popped.trans (steady_globalListPop removed)).trans (ih loop)

theorem steady_schedulerKillProcess {regs : Regs} {exitCode esp : BitVec 32}
    (done : s.schedulerKillProcess regs exitCode = some (esp, s')) : Steady s s' := by
  rw [schedulerKillProcess] at done
  split_ifs at done
  · cases done
    exact .refl s
  · cases parent : (s.proc s.currentProcess).attachedFrom with
    | none =>
        simp only [parent, Option.bind_eq_bind, Option.bind_some, Option.bind_eq_some_iff] at done
        obtain ⟨t, pushed, done⟩ := done
        exact (steady_pushQueue pushed).trans (steady_toNext done)
    | some q =>
        simp only [parent, Option.bind_eq_bind, Option.bind_eq_some_iff] at done
        obtain ⟨t, woken, u, pushed, done⟩ := done
        have marked := steady_modify (f := fun r => { r with receivedExitCode := exitCode }) (fun _ => rfl)
          (fun _ => rfl) s q
        exact ((marked.trans (steady_schedulerPushReady woken)).trans (steady_pushQueue pushed)).trans
          (steady_toNext done)

/-! ## Pushing and popping -/

theorem quiet_withQueue {proc : Heap} {touched : List Addr} (relinks : Relinks s.proc proc touched)
    (k : QueueId S) (q : ProcessQueue) : Quiet s (s.withQueue k proc q) := by
  refine ⟨fun r => ?_, fun r => ?_, fun r => ?_, fun r => ?_, rfl, rfl⟩
  all_goals
    obtain ⟨next, fields⟩ := relinks.fields r
    simp only [withQueue, fields]

theorem Linked.withQueue (linked : s.Linked lines) {k : QueueId S} {proc : Heap} {q : ProcessQueue}
    {l t : List Addr} (holds : Holds proc q l) (relinks : Relinks s.proc proc t)
    (old : ∀ r ∈ t, r ∈ lines k ∨ ∀ j, r ∉ lines j) (new : ∀ r ∈ l, r ∈ lines k ∨ ∀ j, r ∉ lines j) :
    Becomes s (s.withQueue k proc q) (Function.update lines k l) s.currentProcess := by
  refine ⟨⟨fun j => ?_, fun i j different r inside => ?_⟩, quiet_withQueue relinks k q, rfl⟩
  · by_cases same : j = k
    · subst same
      simpa [Scheduler.withQueue] using holds
    · simp only [Scheduler.withQueue, Function.update_of_ne same]
      refine relinks.holds (fun r member touch => ?_) (linked.holds j)
      rcases old r touch with here | nowhere
      · exact linked.apart k j (Ne.symm same) r here member
      · exact nowhere j member
  · by_cases atI : i = k
    · subst atI
      rw [Function.update_self] at inside
      rw [Function.update_of_ne (Ne.symm different)]
      rcases new r inside with here | nowhere
      · exact linked.apart i j different r here
      · exact nowhere j
    · rw [Function.update_of_ne atI] at inside
      by_cases atJ : j = k
      · subst atJ
        rw [Function.update_self]
        intro inL
        rcases new r inL with here | nowhere
        · exact linked.apart i j different r inside here
        · exact nowhere i inside
      · rw [Function.update_of_ne atJ]
        exact linked.apart i j different r inside

theorem Linked.pushQueue (linked : s.Linked lines) (free : ∀ j, p ∉ lines j) (k : QueueId S) :
    ∃ s', s.pushQueue k p = some s' ∧
      Becomes s s' (Function.update lines k (lines k ++ [p])) s.currentProcess := by
  obtain ⟨proc, q, pushed, holds, relinks⟩ := (linked.holds k).push (free k)
  have members : ∀ r, r = p ∨ r ∈ lines k → r ∈ lines k ∨ ∀ j, r ∉ lines j := by
    rintro r (rfl | here)
    · exact .inr free
    · exact .inl here
  refine ⟨_, by rw [Scheduler.pushQueue, pushed]; rfl, linked.withQueue holds relinks ?_ ?_⟩
  · exact fun r member => members r (List.mem_cons.mp member)
  · intro r member
    refine members r ?_
    rcases List.mem_append.mp member with here | isNew
    · exact .inr here
    · exact .inl (List.mem_singleton.mp isNew)

theorem Linked.popQueue (linked : s.Linked lines) {k : QueueId S} {l : List Addr} (line : lines k = p :: l) :
    ∃ s', s.popQueue k = (some p, s') ∧ Becomes s s' (Function.update lines k l) s.currentProcess := by
  have held := linked.holds k
  rw [line] at held
  obtain ⟨q, popped, holds⟩ := held.pop
  refine ⟨_, by rw [Scheduler.popQueue, popped], linked.withQueue (t := []) holds ?_ (by simp) ?_⟩
  · exact ⟨fun r => ⟨_, rfl⟩, fun r _ => rfl⟩
  · intro r member
    rw [line]
    exact .inl (List.mem_cons_of_mem p member)

theorem Linked.schedulerPushReady (linked : s.Linked lines) (free : ∀ j, p ∉ lines j) :
    ∃ s', s.schedulerPushReady p = some s' ∧
      Becomes s s' (Function.update lines .ready (lines .ready ++ [p])) s.currentProcess := by
  have modified := linked.modify (f := fun r => { r with state := .ready }) ⟨fun _ => rfl, fun _ => rfl,
    fun _ => rfl, fun _ => rfl, fun _ => rfl⟩ p
  obtain ⟨s', pushed, becomes⟩ := modified.linked.pushQueue free .ready
  exact ⟨s', pushed, modified.trans becomes⟩

/-! ## Switching -/

theorem Linked.toNext (linked : s.Linked lines) {l : List Addr} (line : lines .ready = p :: l) (regs : Regs) :
    ∃ esp s', s.schedulerToNextProcess regs false = some (esp, s') ∧
      Becomes s s' (Function.update lines .ready l) p := by
  have saved := linked.saveEsp regs.addr
  obtain ⟨t, popped, becomes⟩ := saved.linked.popQueue line
  have active := becomes.linked.activate p
  refine ⟨(t.activate p).1, (t.activate p).2, ?_, (saved.trans becomes).trans active⟩
  simp [schedulerToNextProcess, popped]

theorem Linked.toNext_back (linked : s.Linked lines) (free : ∀ j, s.currentProcess ∉ lines j) {l : List Addr}
    (line : lines .ready ++ [s.currentProcess] = p :: l) (regs : Regs) :
    ∃ esp s', s.schedulerToNextProcess regs true = some (esp, s') ∧
      Becomes s s' (Function.update lines .ready l) p := by
  have saved := linked.saveEsp regs.addr
  obtain ⟨t, pushed, back⟩ := saved.linked.schedulerPushReady free
  obtain ⟨u, popped, becomes⟩ := back.linked.popQueue (k := .ready) (p := p) (l := l)
    (by rw [Function.update_self]; exact line)
  have active := becomes.linked.activate p
  rw [Function.update_idem] at active
  refine ⟨(u.activate p).1, (u.activate p).2, ?_, ((saved.trans back).trans becomes).trans active⟩
  simp only [schedulerToNextProcess, if_true, Option.bind_eq_bind]
  rw [show (s.modify s.currentProcess fun r => { r with savedEsp := regs.addr }).currentProcess =
    s.currentProcess from rfl, pushed, Option.bind_some, popped]

/-! ## Loops -/

/-- The front of queue `k` moves to the end of the ready queue. -/
def released (lines : QueueId S → List Addr) (k : QueueId S) (front back : List Addr) : QueueId S → List Addr :=
  Function.update (Function.update lines k back) .ready (lines .ready ++ front)

theorem released_nil {k : QueueId S} : released lines k [] (lines k) = lines := by
  simp [released]

theorem released_cons {k : QueueId S} (other : k ≠ .ready) (front back : List Addr) (l : List Addr) :
    released (Function.update (Function.update lines k l) .ready (lines .ready ++ [p])) k front back =
      released lines k (p :: front) back := by
  funext j
  by_cases ready : j = .ready
  · subst ready
    simp [released]
  · by_cases here : j = k
    · subst here
      simp [released, ready]
    · simp [released, ready, here]

theorem Linked.free_of_popped (linked : s.Linked lines) {k : QueueId S} {l : List Addr}
    (line : lines k = p :: l) (j : QueueId S) : p ∉ Function.update lines k l j := by
  have nodup : (p :: l).Nodup := line ▸ (linked.holds k).seg.nodup
  by_cases here : j = k
  · subst here
    rw [Function.update_self]
    exact (List.nodup_cons.mp nodup).1
  · rw [Function.update_of_ne here]
    exact linked.apart k j (Ne.symm here) p (line ▸ List.mem_cons_self)

theorem Linked.wakeOne (linked : s.Linked lines) {k : QueueId S} (other : k ≠ .ready) {l : List Addr}
    (line : lines k = p :: l) :
    ∃ t u, s.popQueue k = (some p, t) ∧ t.schedulerPushReady p = some u ∧
      Becomes s u (Function.update (Function.update lines k l) .ready (lines .ready ++ [p])) s.currentProcess := by
  obtain ⟨t, popped, becomes⟩ := linked.popQueue line
  obtain ⟨u, pushed, back⟩ := becomes.linked.schedulerPushReady (linked.free_of_popped line)
  rw [Function.update_of_ne (Ne.symm other)] at back
  rw [becomes.current] at back
  exact ⟨t, u, popped, pushed, becomes.trans back⟩

theorem Linked.released_self (linked : s.Linked lines) {k : QueueId S} {l : List Addr} (line : lines k = l) :
    Becomes s s (released lines k [] l) s.currentProcess := by
  rw [← line, released_nil]
  exact ⟨linked, .refl s, rfl⟩

theorem Linked.wakeLoop (linked : s.Linked lines) {fuel : Nat} (enough : (lines .sleep).length ≤ fuel) :
    ∃ s' front back, wakeLoop fuel s = some s' ∧ lines .sleep = front ++ back ∧
      Becomes s s' (released lines .sleep front back) s.currentProcess ∧ Steady s s' ∧
      (∀ r ∈ front, (s.proc r).sleepTicks ≤ s.globalSleepTicks) ∧
      ∀ r, back.head? = some r → ¬ (s.proc r).sleepTicks ≤ s.globalSleepTicks := by
  induction fuel generalizing s lines with
  | zero =>
      have empty : lines .sleep = [] := List.length_eq_zero_iff.mp (Nat.le_zero.mp enough)
      have top : (s.queue .sleep).top = none := by
        have held := (linked.holds .sleep).seg
        rw [empty] at held
        exact held
      exact ⟨s, [], [], by simp [Scheduler.wakeLoop, top], empty, linked.released_self empty, .refl s, by simp, by simp⟩
  | succ fuel ih =>
      have held := (linked.holds .sleep).seg.head
      cases line : lines .sleep with
      | nil =>
          rw [line] at held
          exact ⟨s, [], [], by simp [Scheduler.wakeLoop, held], rfl, linked.released_self line, .refl s, by simp,
            by simp⟩
      | cons p l =>
          rw [line] at held
          by_cases due : (s.proc p).sleepTicks ≤ s.globalSleepTicks
          · obtain ⟨t, u, popped, pushed, becomes⟩ := linked.wakeOne (by simp) line
            have steady : Steady s u := by
              have first := steady_popQueue s .sleep
              rw [popped] at first
              exact first.trans (steady_schedulerPushReady pushed)
            obtain ⟨s', front, back, loop, split, rest, later, early, late⟩ := ih becomes.linked (by
              rw [line, List.length_cons] at enough
              simp [Function.update_of_ne]
              omega)
            have l_eq : l = front ++ back := by simpa [Function.update_of_ne] using split
            refine ⟨s', p :: front, back, ?_, by rw [l_eq]; rfl, ?_, steady.trans later, ?_, ?_⟩
            · simp only [Scheduler.wakeLoop, held, List.head?_cons, due, if_true, popped, pushed, Option.bind_some]
              exact loop
            · rw [released_cons (by simp)] at rest
              rw [becomes.current] at rest
              exact becomes.trans rest
            · intro r member
              rcases List.mem_cons.mp member with rfl | inFront
              · exact due
              · rw [← steady.sleepTicks, ← steady.ticks]
                exact early r inFront
            · intro r first
              rw [← steady.sleepTicks, ← steady.ticks]
              exact late r first
          · refine ⟨s, [], p :: l, by simp [Scheduler.wakeLoop, held, due], rfl, linked.released_self line, .refl s,
              by simp, ?_⟩
            rintro r ⟨⟩
            exact due

/-- What the processes of a list ask for together, in 32 bits. -/
def wantedBy (s : Scheduler S) (l : List Addr) : BitVec 32 :=
  (l.map fun r => (s.proc r).waitingForResourceCount).sum

omit [DecidableEq S] in
theorem SameRequests.wantedBy (same : SameRequests s s') (l : List Addr) : s'.wantedBy l = s.wantedBy l := by
  simp only [Scheduler.wantedBy, same.wanted]

/-- The waiters `front` are served in order, and `back` waits on: its first asks for more than is left. -/
structure Serves (s s' : Scheduler S) (lines : QueueId S → List Addr) (sem : S) (count : BitVec 32)
    (front back : List Addr) : Prop where
  line : lines (.waiting sem) = front ++ back
  becomes : Becomes s s' (released lines (.waiting sem) front back) s.currentProcess
  requests : SameRequests s s'
  ticks : s'.globalSleepTicks = s.globalSleepTicks
  semCount : s'.semCount = Function.update s.semCount sem (count - s.wantedBy front)
  -- no subtraction wraps around
  covered : (s'.semCount sem).toNat + (front.map fun r => (s.proc r).waitingForResourceCount.toNat).sum = count.toNat
  short : ∀ r, back.head? = some r → s'.semCount sem < (s.proc r).waitingForResourceCount

theorem Linked.serves_nobody (linked : s.Linked lines) {sem : S} {back : List Addr} (line : lines (.waiting sem) = back)
    (short : ∀ r, back.head? = some r → s.semCount sem < (s.proc r).waitingForResourceCount) :
    Serves s s lines sem (s.semCount sem) [] back :=
  ⟨line, linked.released_self line, (Steady.refl s).toSameRequests, rfl, by simp [Scheduler.wantedBy], rfl, short⟩

theorem Linked.serveLoop (linked : s.Linked lines) (sem : S) {fuel : Nat}
    (enough : (lines (.waiting sem)).length ≤ fuel) :
    ∃ s' front back, serveLoop sem fuel s = some s' ∧ Serves s s' lines sem (s.semCount sem) front back := by
  induction fuel generalizing s lines with
  | zero =>
      have empty : lines (.waiting sem) = [] := List.length_eq_zero_iff.mp (Nat.le_zero.mp enough)
      have size := (linked.holds (.waiting sem)).size
      rw [empty] at size
      exact ⟨s, [], [], by simpa [Scheduler.serveLoop] using size, linked.serves_nobody empty (by simp)⟩
  | succ fuel ih =>
      have held := (linked.holds (.waiting sem)).seg.head
      have size := (linked.holds (.waiting sem)).size
      cases line : lines (.waiting sem) with
      | nil =>
          rw [line] at size
          exact ⟨s, [], [], by simp [Scheduler.serveLoop, size], linked.serves_nobody line (by simp)⟩
      | cons p l =>
          rw [line] at held size
          by_cases served : s.semCount sem ≥ (s.proc p).waitingForResourceCount
          · have counted := linked.withSemCount sem (s.semCount sem - (s.proc p).waitingForResourceCount)
            obtain ⟨t, popped, becomes⟩ := counted.linked.popQueue line
            have ready := becomes.linked.modify (f := fun r => { r with state := .ready }) ⟨fun _ => rfl,
              fun _ => rfl, fun _ => rfl, fun _ => rfl, fun _ => rfl⟩ p
            obtain ⟨u, pushed, back⟩ := ready.linked.schedulerPushReady (linked.free_of_popped line)
            rw [Function.update_of_ne (by simp)] at back
            have turn := ((counted.trans becomes).trans ready).trans back
            have steady : Steady (s.withSemCount sem (s.semCount sem - (s.proc p).waitingForResourceCount)) u := by
              have first := steady_popQueue (s.withSemCount sem (s.semCount sem - (s.proc p).waitingForResourceCount))
                (.waiting sem)
              rw [popped] at first
              have second := steady_modify (f := fun r => { r with state := .ready }) (fun _ => rfl)
                (fun _ => rfl) t p
              exact (first.trans second).trans (steady_schedulerPushReady pushed)
            have requests : SameRequests s u := ⟨steady.sleepTicks, steady.wanted⟩
            have left : u.semCount = Function.update s.semCount sem
                (s.semCount sem - (s.proc p).waitingForResourceCount) := steady.semCount
            obtain ⟨s', front, rest, loop, serves⟩ := ih turn.linked (by
              rw [line, List.length_cons] at enough
              simp [Function.update_of_ne]
              omega)
            have l_eq : l = front ++ rest := by simpa [Function.update_of_ne] using serves.line
            have last := serves.becomes
            rw [released_cons (by simp)] at last
            have current : u.currentProcess = s.currentProcess := by
              rw [turn.current, ready.current, becomes.current, counted.current]
            rw [current] at last
            refine ⟨s', p :: front, rest, ?_, by rw [line, l_eq]; rfl, turn.trans last, requests.trans serves.requests,
              serves.ticks.trans steady.ticks, ?_, ?_, ?_⟩
            · have nonempty : ¬ (s.queue (.waiting sem)).size = 0 := by
                rw [size]
                simp
              simp only [Scheduler.serveLoop, nonempty, if_false, held, List.head?_cons, served, if_true, popped, pushed,
                Option.bind_some]
              exact loop
            · rw [serves.semCount, left, requests.wantedBy, Function.update_idem, Function.update_self]
              simp only [Scheduler.wantedBy, List.map_cons, List.sum_cons]
              congr 1
              ring
            · have covered := serves.covered
              have fits := BitVec.le_def.mp served
              rw [left, Function.update_self, BitVec.toNat_sub_of_le served] at covered
              simp only [requests.wanted] at covered
              rw [List.map_cons, List.sum_cons]
              omega
            · intro r first
              rw [← requests.wanted]
              exact serves.short r first
          · refine ⟨s, [], p :: l, by simp [Scheduler.serveLoop, size, held, served], linked.serves_nobody line ?_⟩
            rintro r ⟨⟩
            exact BitVec.not_le.mp served

theorem Linked.semaphoreRelease (linked : s.Linked lines) (sem : S) (count : BitVec 32) :
    ∃ s' front back, s.semaphoreRelease sem count = some s' ∧
      Serves s s' lines sem (s.semCount sem + count) front back := by
  have counted := linked.withSemCount sem (s.semCount sem + count)
  obtain ⟨s', front, back, loop, serves⟩ := counted.linked.serveLoop sem
    (le_of_eq (linked.holds (.waiting sem)).size.symm)
  refine ⟨s', front, back, loop, serves.line, counted.trans serves.becomes,
    ⟨serves.requests.sleepTicks, serves.requests.wanted⟩, serves.ticks, ?_, ?_, serves.short⟩
  · rw [serves.semCount]
    simp only [Scheduler.withSemCount, Function.update_idem, Function.update_self]
    rfl
  · have covered := serves.covered
    simp only [Scheduler.withSemCount, Function.update_self] at covered
    exact covered

/-- The clock advances while somebody sleeps, and is reset when nobody does any more. -/
def tickedClock (s : Scheduler S) (sleepers back : List Addr) : BitVec 64 :=
  if sleepers = [] then s.globalSleepTicks else if back = [] then 0#64 else s.globalSleepTicks + 1#64

/-- The sleepers `front` are due at the next tick and wake up; the first of `back` is not due. -/
structure Wakes (s s' : Scheduler S) (lines : QueueId S → List Addr) (front back : List Addr) : Prop where
  line : lines .sleep = front ++ back
  becomes : Becomes s s' (released lines .sleep front back) s.currentProcess
  requests : SameRequests s s'
  semCount : s'.semCount = s.semCount
  clock : s'.globalSleepTicks = s.tickedClock (lines .sleep) back
  due : ∀ r ∈ front, (s.proc r).sleepTicks ≤ s.globalSleepTicks + 1#64
  early : ∀ r, back.head? = some r → ¬ (s.proc r).sleepTicks ≤ s.globalSleepTicks + 1#64

theorem Linked.wakeSleepers (linked : s.Linked lines) :
    ∃ s' front back, s.wakeSleepers = some s' ∧ Wakes s s' lines front back := by
  have size := (linked.holds .sleep).size
  by_cases nobody : (s.queue .sleep).size = 0
  · have empty : lines .sleep = [] := List.length_eq_zero_iff.mp (size.symm.trans nobody)
    exact ⟨s, [], [], by simp [Scheduler.wakeSleepers, nobody], empty, linked.released_self empty,
      (Steady.refl s).toSameRequests, rfl, by rw [tickedClock, if_pos empty], by simp, by simp⟩
  · have ticked := linked.withSleepTicks (s.globalSleepTicks + 1#64)
    obtain ⟨t, front, back, loop, split, becomes, steady, due, early⟩ := ticked.linked.wakeLoop (le_of_eq size.symm)
    have woken := ticked.trans becomes
    have loop' : Scheduler.wakeLoop (s.queue .sleep).size (s.withSleepTicks (s.globalSleepTicks + 1#64)) = some t := loop
    have sleepers : ¬ lines .sleep = [] := fun empty => nobody (by rw [size, empty]; rfl)
    have left : (t.queue .sleep).size = back.length := by
      have := (woken.linked.holds .sleep).size
      simpa [released] using this
    refine ⟨if (t.queue .sleep).size = 0 then t.withSleepTicks 0#64 else t, front, back, ?_, split, ?_, ?_, ?_, ?_, due,
      early⟩
    · simp only [Scheduler.wakeSleepers, nobody, if_false, Option.bind_eq_bind]
      rw [show ((s.withSleepTicks (s.globalSleepTicks + 1#64)).queue .sleep) = s.queue .sleep from rfl, loop']
      rfl
    · split_ifs
      · have reset := woken.linked.withSleepTicks 0#64
        rw [woken.current] at reset
        exact woken.trans reset
      · exact woken
    · split_ifs <;> exact ⟨steady.sleepTicks, steady.wanted⟩
    · split_ifs <;> exact steady.semCount
    · rw [tickedClock, if_neg sleepers, left]
      cases back with
      | nil => rfl
      | cons r back => exact steady.ticks

theorem Linked.sleepPush (linked : s.Linked lines) (free : ∀ j, p ∉ lines j) :
    ∃ proc q front back, processQueueSortedPush s.proc (s.queue .sleep) p processSortBySleepTicks = some (proc, q) ∧
      lines .sleep = front ++ back ∧
      Becomes s (s.withQueue .sleep proc q) (Function.update lines .sleep (front ++ p :: back)) s.currentProcess ∧
      Steady s (s.withQueue .sleep proc q) ∧ (∀ r ∈ front, (s.proc r).sleepTicks < (s.proc p).sleepTicks) ∧
      ∀ r, back.head? = some r → ¬ (s.proc r).sleepTicks < (s.proc p).sleepTicks := by
  obtain ⟨proc, q, front, back, pushed, split, holds, relinks, early, late⟩ :=
    (linked.holds .sleep).sortedPush (free .sleep) processSortBySleepTicks
  have members : ∀ r, r = p ∨ r ∈ lines .sleep → r ∈ lines .sleep ∨ ∀ j, r ∉ lines j := by
    rintro r (rfl | here)
    · exact .inr free
    · exact .inl here
  refine ⟨proc, q, front, back, pushed, split, linked.withQueue holds relinks ?_ ?_, steady_withQueue relinks.fields .sleep q,
    ?_, ?_⟩
  · exact fun r member => members r (List.mem_cons.mp member)
  · intro r member
    refine members r ?_
    rw [split]
    simp only [List.mem_append, List.mem_cons] at member ⊢
    tauto
  · intro r member
    simpa [processSortBySleepTicks] using early r member
  · intro r first
    simpa [processSortBySleepTicks] using late r first

end Kerosene.Sched.Scheduler
