import Kerosene.Sched.Effects

/-!
# Whose turn it is

The ready queue is served in order whatever the other calls do. Nothing is asked of the idle process here, and
processes may get lost: `leave` is a switch that does not add the caller back to the ready queue, and `init` a
semaphore set up anew, which forgets its waiters.
-/

namespace Kerosene.Sched
open Lib

/-! ## Processes that can still run -/

/-- Neither the running process nor one that waits for its child is in a queue, and no two children have the same
process to wake up. `alive` leaves out the processes to be deleted. -/
structure Apart {S : Type} (parent : Addr → Option Addr) (live : List Addr) (lines : QueueId S → List Addr) (alive : Set Addr)
    (run : Option Addr) : Prop where
  running : ∀ c, run = some c → c ∈ alive ∧ ∀ k, c ∉ lines k
  queued : ∀ k, k ≠ .delete → ∀ p ∈ lines k, p ∈ alive
  dead : ∀ p ∈ lines .delete, p ∉ alive ∧ p ∈ live
  listed : ∀ p ∈ alive, p ∈ live
  waits : ∀ c ∈ alive, ∀ q, parent c = some q → q ∈ alive ∧ run ≠ some q ∧ ∀ k, q ∉ lines k
  single : ∀ c ∈ alive, ∀ d ∈ alive, ∀ q, parent c = some q → parent d = some q → c = d

section Moves
variable {S : Type} [DecidableEq S] {parent : Addr → Option Addr} {live : List Addr} {lines lines' : QueueId S → List Addr}
  {alive : Set Addr} {run run' : Option Addr} {c p q : Addr}

omit [DecidableEq S] in
theorem Apart.unlisted_free (apart : Apart parent live lines alive run) (unlisted : p ∉ live) (k : QueueId S) : p ∉ lines k := by
  intro inside
  by_cases isDelete : k = .delete
  · subst isDelete
    exact unlisted (apart.dead p inside).2
  · exact unlisted (apart.listed p (apart.queued k isDelete p inside))

omit [DecidableEq S] in
theorem Apart.shift (apart : Apart parent live lines alive run) (free : ∀ c, run' = some c → ∀ k, c ∉ lines' k)
    (queued : ∀ k, k ≠ .delete → ∀ p ∈ lines' k, run = some p ∨ ∃ j, j ≠ .delete ∧ p ∈ lines j)
    (running : ∀ c, run' = some c → run = some c ∨ ∃ j, j ≠ .delete ∧ c ∈ lines j)
    (dead : lines' .delete = lines .delete) : Apart parent live lines' alive run' := by
  have known : ∀ p, (run = some p ∨ ∃ j, j ≠ .delete ∧ p ∈ lines j) → p ∈ alive := by
    rintro p (runs | ⟨j, notDelete, inside⟩)
    · exact (apart.running p runs).1
    · exact apart.queued j notDelete p inside
  have unknown : ∀ d ∈ alive, ∀ q, parent d = some q → ¬ (run = some q ∨ ∃ j, j ≠ .delete ∧ q ∈ lines j) := by
    rintro d member q is (runs | ⟨j, -, inside⟩)
    · exact (apart.waits d member q is).2.1 runs
    · exact (apart.waits d member q is).2.2 j inside
  refine ⟨fun c runs => ⟨known c (running c runs), free c runs⟩, fun k notDelete p inside => known p (queued k notDelete p inside),
    fun p inside => apart.dead p (dead ▸ inside), apart.listed, fun d member q is => ⟨(apart.waits d member q is).1, ?_, ?_⟩,
    apart.single⟩
  · exact fun runs => unknown d member q is (running q runs)
  · intro k inside
    by_cases isDelete : k = .delete
    · subst isDelete
      exact (apart.waits d member q is).2.2 .delete (dead ▸ inside)
    · exact unknown d member q is (queued k isDelete q inside)

theorem Apart.kill (apart : Apart parent live lines alive (some c)) {l : List Addr}
    (ready : ∀ r, r ∈ l ↔ r ∈ lines .ready ∨ parent c = some r) :
    Apart parent live (Function.update (Function.update lines .ready l) .delete (lines .delete ++ [c])) (alive \ {c}) none := by
  obtain ⟨isAlive, free⟩ := apart.running c rfl
  have members : ∀ k r, r ∈ Function.update (Function.update lines .ready l) .delete (lines .delete ++ [c]) k →
      r ∈ lines k ∨ k = .delete ∧ r = c ∨ k = .ready ∧ parent c = some r := by
    intro k r inside
    by_cases isDelete : k = .delete
    · subst isDelete
      rw [Function.update_self, List.mem_append, List.mem_singleton] at inside
      exact inside.imp_right fun same => .inl ⟨rfl, same⟩
    · rw [Function.update_of_ne isDelete] at inside
      by_cases isReady : k = .ready
      · subst isReady
        rw [Function.update_self] at inside
        exact ((ready r).mp inside).imp_right fun waits => .inr ⟨rfl, waits⟩
      · rw [Function.update_of_ne isReady] at inside
        exact .inl inside
  refine ⟨by simp, fun k notDelete r inside => ?_, fun r inside => ?_, fun r member => apart.listed r member.1,
    fun d member r is => ?_, fun d dAlive e eAlive r => apart.single d dAlive.1 e eAlive.1 r⟩
  · rcases members k r inside with old | ⟨isDelete, -⟩ | ⟨-, waits⟩
    · exact ⟨apart.queued k notDelete r old, fun same => free k (same ▸ old)⟩
    · exact absurd isDelete notDelete
    · have parents := apart.waits c isAlive r waits
      exact ⟨parents.1, fun same => parents.2.1 (congrArg some same.symm)⟩
  · rcases members .delete r inside with old | ⟨-, rfl⟩ | ⟨⟨⟩, -⟩
    · exact ⟨fun member => (apart.dead r old).1 member.1, (apart.dead r old).2⟩
    · exact ⟨fun member => member.2 rfl, apart.listed r isAlive⟩
  · obtain ⟨rAlive, notRunning, rFree⟩ := apart.waits d member.1 r is
    have other : r ≠ c := fun same => notRunning (congrArg some same.symm)
    refine ⟨⟨rAlive, other⟩, nofun, fun k inside => ?_⟩
    rcases members k r inside with old | ⟨-, same⟩ | ⟨-, waits⟩
    · exact rFree k old
    · exact other same
    · exact member.2 (apart.single d member.1 c isAlive r is waits)

theorem Apart.enter (apart : Apart parent live lines alive run) (fresh : p ∉ live) {single : Option Addr}
    (attached : single = none ∨ single = run ∧ run' = none) (stays : run' = none ∨ run' = run) :
    Apart (Function.update parent p single) (live ++ [p]) (Function.update lines .ready (lines .ready ++ [p]))
      (insert p alive) run' := by
  have notAlive : p ∉ alive := fun member => fresh (apart.listed p member)
  have other : ∀ d ∈ alive, d ≠ p := by
    rintro d member rfl
    exact notAlive member
  have members : ∀ k r, r ∈ Function.update lines .ready (lines .ready ++ [p]) k → r ∈ lines k ∨ k = .ready ∧ r = p := by
    intro k r inside
    by_cases isReady : k = .ready
    · subst isReady
      rw [Function.update_self, List.mem_append, List.mem_singleton] at inside
      exact inside.imp_right fun same => ⟨rfl, same⟩
    · rw [Function.update_of_ne isReady] at inside
      exact .inl inside
  have runs : ∀ c, run' = some c → run = some c := by
    rintro c is
    rcases stays with nobody | same
    · cases nobody ▸ is
    · exact same ▸ is
  have parents : ∀ d ∈ insert p alive, ∀ q, Function.update parent p single d = some q →
      d = p ∧ single = some q ∧ run = some q ∧ run' = none ∨ d ∈ alive ∧ parent d = some q := by
    rintro d (rfl | member) q is
    · rw [Function.update_self] at is
      rcases attached with none | ⟨same, nobody⟩
      · cases none ▸ is
      · exact .inl ⟨rfl, is, same ▸ is, nobody⟩
    · rw [Function.update_of_ne (other d member)] at is
      exact .inr ⟨member, is⟩
  have outside : ∀ q ∈ alive, (∀ k, q ∉ lines k) → ∀ k, q ∉ Function.update lines .ready (lines .ready ++ [p]) k := by
    intro q member free k inside
    rcases members k q inside with old | ⟨-, same⟩
    · exact free k old
    · exact other q member same
  refine ⟨fun c is => ?_, fun k notDelete r inside => ?_, fun r inside => ?_, ?_, fun d member q is => ?_,
    fun d dIn e eIn q isD isE => ?_⟩
  · obtain ⟨isAlive, free⟩ := apart.running c (runs c is)
    exact ⟨.inr isAlive, outside c isAlive free⟩
  · rcases members k r inside with old | ⟨-, rfl⟩
    · exact .inr (apart.queued k notDelete r old)
    · exact .inl rfl
  · rcases members .delete r inside with old | ⟨⟨⟩, -⟩
    obtain ⟨dead, listed⟩ := apart.dead r old
    refine ⟨?_, List.mem_append_left _ listed⟩
    rintro (rfl | member)
    · exact fresh listed
    · exact dead member
  · rintro r (rfl | member)
    · exact List.mem_append_right _ List.mem_cons_self
    · exact List.mem_append_left _ (apart.listed r member)
  · rcases parents d member q is with ⟨-, -, running, nobody⟩ | ⟨old, was⟩
    · obtain ⟨isAlive, free⟩ := apart.running q running
      exact ⟨.inr isAlive, by simp [nobody], outside q isAlive free⟩
    · obtain ⟨isAlive, notRunning, free⟩ := apart.waits d old q was
      exact ⟨.inr isAlive, fun is => notRunning (runs q is), outside q isAlive free⟩
  · rcases parents d dIn q isD with ⟨isP, -, running, -⟩ | ⟨oldD, wasD⟩ <;>
      rcases parents e eIn q isE with ⟨isP', -, running', -⟩ | ⟨oldE, wasE⟩
    · exact isP.trans isP'.symm
    · exact absurd running (apart.waits e oldE q wasE).2.1
    · exact absurd running' (apart.waits d oldD q wasD).2.1
    · exact apart.single d oldD e oldE q wasD wasE

theorem Apart.delete (apart : Apart parent live lines alive run) :
    Apart parent (live.filter (· ∉ lines .delete)) (Function.update lines .delete []) alive run := by
  have members : ∀ k r, r ∈ Function.update lines .delete [] k → r ∈ lines k := by
    intro k r inside
    by_cases isDelete : k = .delete
    · subst isDelete
      rw [Function.update_self] at inside
      cases inside
    · rwa [Function.update_of_ne isDelete] at inside
  refine ⟨fun c runs => ⟨(apart.running c runs).1, fun k inside => (apart.running c runs).2 k (members k c inside)⟩,
    fun k notDelete r inside => apart.queued k notDelete r (members k r inside), fun r inside => ?_, fun r member => ?_,
    fun d member q is => ?_, apart.single⟩
  · rw [Function.update_self] at inside
    cases inside
  · refine List.mem_filter.mpr ⟨apart.listed r member, decide_eq_true fun inside => ?_⟩
    exact (apart.dead r inside).1 member
  · obtain ⟨isAlive, notRunning, free⟩ := apart.waits d member q is
    exact ⟨isAlive, notRunning, fun k inside => free k (members k q inside)⟩

end Moves

namespace Scheduler
variable {S : Type} {s s' : Scheduler S} {live : List Addr} {lines lines' : QueueId S → List Addr} {alive : Set Addr}
  {run : Option Addr} {p : Addr} {regs : Regs} {esp : BitVec 32}

-- who wakes up when a process is killed; process 1 is never killed
def parentOf (s : Scheduler S) (p : Addr) : Option Addr := if (s.proc p).id = 1 then none else (s.proc p).attachedFrom

structure Orderly (s : Scheduler S) (live : List Addr) (lines : QueueId S → List Addr) (alive : Set Addr) (run : Option Addr) : Prop where
  linked : s.Linked lines
  apart : Apart s.parentOf live lines alive run

theorem parentOf_congr (id : ∀ r, (s'.proc r).id = (s.proc r).id) (attached : ∀ r, (s'.proc r).attachedFrom = (s.proc r).attachedFrom) :
    s'.parentOf = s.parentOf := by
  funext r
  rw [parentOf, id, attached, parentOf]

theorem Quiet.parentOf (quiet : Quiet s s') : s'.parentOf = s.parentOf := parentOf_congr quiet.id quiet.attached

theorem Orderly.becomes {c : Addr} (becomes : Becomes s s' lines' c) (apart : Apart s.parentOf live lines' alive run) :
    s'.Orderly live lines' alive run :=
  ⟨becomes.linked, becomes.quiet.parentOf ▸ apart⟩

theorem relists_globalListPush (s : Scheduler S) (p : Addr) : Relists s (s.globalListPush p) := by
  have first := relists_modify (f := fun r => { r with globalNext := some p }) (fun _ => rfl) (fun _ => rfl)
    (fun _ => rfl) s s.globalListBottom
  have second := relists_modify (f := fun r => { r with globalPrev := some s.globalListBottom, globalNext := none })
    (fun _ => rfl) (fun _ => rfl) (fun _ => rfl) (s.modify s.globalListBottom fun r => { r with globalNext := some p }) p
  have both := first.trans second
  exact ⟨both.queueNext, both.attached, both.id, rfl, rfl⟩

theorem relists_globalListPop (done : s.globalListPop p = some s') : Relists s s' := by
  obtain ⟨prev, -, done⟩ := Option.bind_eq_some_iff.mp done
  cases done
  have first : ∀ next, Relists s (s.modify prev fun r => { r with globalNext := next }) := fun next =>
    relists_modify (f := fun r => { r with globalNext := next }) (fun _ => rfl) (fun _ => rfl) (fun _ => rfl) s prev
  cases (s.proc p).globalNext with
  | none => exact ⟨(first none).queueNext, (first none).attached, (first none).id, rfl, rfl⟩
  | some n =>
      have second := relists_modify (f := fun r => { r with globalPrev := some prev }) (fun _ => rfl) (fun _ => rfl)
        (fun _ => rfl) (s.modify prev fun r => { r with globalNext := some n }) n
      have both := (first (some n)).trans second
      exact ⟨both.queueNext, both.attached, both.id, rfl, rfl⟩

variable [DecidableEq S]

theorem Linked.deleteLoop (linked : s.Linked lines) {fuel : Nat} {deleted : List Addr}
    (done : Scheduler.deleteLoop fuel s = some (deleted, s')) :
    deleted = lines .delete ∧ s'.Linked (Function.update lines .delete []) ∧ s'.parentOf = s.parentOf ∧
      s'.currentProcess = s.currentProcess := by
  have size := (linked.holds .delete).size
  induction fuel generalizing s lines deleted with
  | zero =>
      rw [Scheduler.deleteLoop] at done
      split_ifs at done with empty
      cases done
      have none : lines .delete = [] := List.length_eq_zero_iff.mp (size.symm.trans empty)
      exact ⟨none.symm, by rw [← none, Function.update_eq_self]; exact linked, rfl, rfl⟩
  | succ fuel ih =>
      rw [Scheduler.deleteLoop] at done
      cases line : lines .delete with
      | nil =>
          rw [if_pos (by rw [size, line]; rfl)] at done
          cases done
          exact ⟨rfl, by rw [← line, Function.update_eq_self]; exact linked, rfl, rfl⟩
      | cons p l =>
          obtain ⟨t, popped, becomes⟩ := linked.popQueue line
          rw [if_neg (by rw [size, line]; simp), popped] at done
          obtain ⟨u, removed, done⟩ := Option.bind_eq_some_iff.mp done
          obtain ⟨⟨rest, v⟩, loop, done⟩ := Option.bind_eq_some_iff.mp done
          cases done
          have relists := relists_globalListPop removed
          have linkedU := relists.linked becomes.linked
          obtain ⟨same, linked', parents, current⟩ := ih linkedU loop (linkedU.holds .delete).size
          rw [Function.update_self] at same
          rw [Function.update_idem] at linked'
          refine ⟨by rw [same], linked', ?_, ?_⟩
          · rw [parents, parentOf_congr relists.id relists.attached, becomes.quiet.parentOf]
          · rw [current, relists.current, becomes.current]

/-! ## One call -/

theorem Orderly.pick {l : List Addr} (orderly : s.Orderly live lines alive run) (nodup : (p :: l).Nodup)
    (members : ∀ r ∈ p :: l, r ∈ lines .ready ∨ run = some r) (becomes : Becomes s s' (Function.update lines .ready l) p) :
    s'.Orderly live (Function.update lines .ready l) alive (some p) := by
  have inside : ∀ k r, r ∈ Function.update lines .ready l k → run = some r ∨ r ∈ lines k := by
    intro k r member
    by_cases isReady : k = .ready
    · subst isReady
      rw [Function.update_self] at member
      exact (members r (List.mem_cons_of_mem p member)).symm
    · rw [Function.update_of_ne isReady] at member
      exact .inr member
  refine .becomes becomes (orderly.apart.shift ?_ (fun k notDelete r member => ?_) ?_ rfl)
  · rintro c ⟨⟩ k member
    by_cases isReady : k = .ready
    · subst isReady
      rw [Function.update_self] at member
      exact (List.nodup_cons.mp nodup).1 member
    · rw [Function.update_of_ne isReady] at member
      rcases members p List.mem_cons_self with ready | runs
      · exact orderly.linked.apart .ready k (Ne.symm isReady) p ready member
      · exact (orderly.apart.running p runs).2 k member
  · exact (inside k r member).imp_right fun old => ⟨k, notDelete, old⟩
  · rintro c ⟨⟩
    exact (members p List.mem_cons_self).symm.imp_right fun ready => ⟨.ready, nofun, ready⟩

theorem Orderly.toNext (orderly : s.Orderly live lines alive none) (done : s.schedulerToNextProcess regs false = some (esp, s')) :
    ∃ l, lines .ready = s'.currentProcess :: l ∧ s'.Orderly live (Function.update lines .ready l) alive (some s'.currentProcess) := by
  cases line : lines .ready with
  | nil =>
      have top : (s.queue .ready).top = none := by
        have seg := (orderly.linked.holds .ready).seg
        rw [line] at seg
        exact seg
      simp [schedulerToNextProcess, popQueue, modify, processQueuePop, top] at done
  | cons p l =>
      obtain ⟨esp', t, done', becomes⟩ := orderly.linked.toNext line regs
      cases done.symm.trans done'
      rw [becomes.current]
      exact ⟨l, rfl, orderly.pick (line ▸ (orderly.linked.holds .ready).seg.nodup) (fun r member => .inl (line ▸ member)) becomes⟩

theorem Orderly.enqueue {t : Scheduler S} {c d : Addr} {k : QueueId S} {l : List Addr} (orderly : s.Orderly live lines alive (some c))
    (becomes : Becomes s t (Function.update lines k l) d) (notDelete : k ≠ .delete) (members : ∀ r ∈ l, r = c ∨ r ∈ lines k) :
    t.Orderly live (Function.update lines k l) alive none := by
  refine .becomes becomes (orderly.apart.shift nofun (fun j other r inside => ?_) nofun (Function.update_of_ne (Ne.symm notDelete) _ _))
  by_cases here : j = k
  · subst here
    rw [Function.update_self] at inside
    rcases members r inside with rfl | old
    · exact .inl rfl
    · exact .inr ⟨j, other, old⟩
  · rw [Function.update_of_ne here] at inside
    exact .inr ⟨j, other, inside⟩

theorem Orderly.released {t : Scheduler S} {k : QueueId S} {front back : List Addr} {c : Addr} (orderly : s.Orderly live lines alive run)
    (notDelete : k ≠ .delete) (line : lines k = front ++ back) (becomes : Becomes s t (released lines k front back) c) :
    t.Orderly live (released lines k front back) alive run := by
  have inside : ∀ j r, r ∈ Scheduler.released lines k front back j → r ∈ lines j ∨ r ∈ lines k := by
    intro j r member
    rw [Scheduler.released] at member
    by_cases isReady : j = .ready
    · subst isReady
      rw [Function.update_self, List.mem_append] at member
      exact member.imp_right fun woken => line ▸ List.mem_append_left back woken
    · rw [Function.update_of_ne isReady] at member
      by_cases here : j = k
      · subst here
        rw [Function.update_self] at member
        exact .inl (line ▸ List.mem_append_right front member)
      · rw [Function.update_of_ne here] at member
        exact .inl member
  refine .becomes becomes (orderly.apart.shift (fun c runs j member => ?_) (fun j other r member => .inr ?_) (fun c runs => .inl runs) ?_)
  · rcases inside j c member with old | old
    · exact (orderly.apart.running c runs).2 j old
    · exact (orderly.apart.running c runs).2 k old
  · rcases inside j r member with old | old
    · exact ⟨j, other, old⟩
    · exact ⟨k, notDelete, old⟩
  · rw [Scheduler.released, Function.update_of_ne (by simp), Function.update_of_ne (Ne.symm notDelete)]

theorem prefix_released (k : QueueId S) (front back : List Addr) : lines .ready <+: released lines k front back .ready := by
  rw [Scheduler.released, Function.update_self]
  exact List.prefix_append _ _

/-- What a call leaves: those made current by it were first in the ready queue, before all that it pushed. -/
structure Turns (s s' : Scheduler S) (live : List Addr) (lines : QueueId S → List Addr) (switched : Bool) : Prop where
  orderly : ∃ lines' alive, s'.Orderly live lines' alive (some s'.currentProcess) ∧
    lines .ready <+: (if switched then [s'.currentProcess] else []) ++ lines' .ready
  stays : switched = false → s'.currentProcess = s.currentProcess

theorem Orderly.turn {t : Scheduler S} (orderly : t.Orderly live lines' alive none) (order : lines .ready <+: lines' .ready)
    (done : t.schedulerToNextProcess regs false = some (esp, s')) : s.Turns s' live lines true := by
  obtain ⟨l, line, orderly'⟩ := orderly.toNext done
  refine ⟨⟨_, alive, orderly', ?_⟩, nofun⟩
  rw [Function.update_self]
  rwa [line] at order

variable (orderly : s.Orderly live lines alive (some s.currentProcess))
include orderly

omit [DecidableEq S] in
theorem Orderly.stops : s.Orderly live lines alive none :=
  ⟨orderly.linked, orderly.apart.shift nofun (fun k notDelete _ inside => .inr ⟨k, notDelete, inside⟩) nofun rfl⟩

theorem Orderly.leave (done : s.schedulerToNextProcess regs false = some (esp, s')) : s.Turns s' live lines true :=
  orderly.stops.turn (List.prefix_refl _) done

theorem Orderly.yield (done : s.schedulerToNextProcess regs true = some (esp, s')) : s.Turns s' live lines true := by
  have free := (orderly.apart.running _ rfl).2
  obtain ⟨p, l, line⟩ : ∃ p l, lines .ready ++ [s.currentProcess] = p :: l := by
    cases lines .ready with
    | nil => exact ⟨_, _, rfl⟩
    | cons a k => exact ⟨_, _, rfl⟩
  obtain ⟨esp', t, done', becomes⟩ := orderly.linked.toNext_back free line regs
  cases done.symm.trans done'
  have nodup : (p :: l).Nodup := by
    rw [← line, List.nodup_append']
    exact ⟨(orderly.linked.holds .ready).seg.nodup, List.nodup_singleton _, by simpa using free .ready⟩
  have picked := orderly.pick nodup (fun r member => by simpa [← line, eq_comm] using member) becomes
  refine ⟨⟨_, alive, becomes.current ▸ picked, ?_⟩, nofun⟩
  rw [Function.update_self, becomes.current]
  exact ⟨[s.currentProcess], line⟩

theorem Orderly.sleep {ticks : BitVec 32} (done : s.schedulerSetSleep regs ticks = some (esp, s')) : s.Turns s' live lines true := by
  have marked := orderly.linked.modify (f := fun r => { r with sleepTicks := ticks.setWidth 64 + s.globalSleepTicks, state := .sleep })
    ⟨fun _ => rfl, fun _ => rfl, fun _ => rfl, fun _ => rfl, fun _ => rfl⟩ s.currentProcess
  obtain ⟨proc, q, front, back, pushed, split, becomes, -⟩ := marked.linked.sleepPush (orderly.apart.running _ rfl).2
  have asleep := orderly.enqueue (marked.trans becomes) (by simp) fun r member => by
    rw [split]
    simpa [or_left_comm] using member
  obtain ⟨⟨proc', q'⟩, pushed', done⟩ := Option.bind_eq_some_iff.mp done
  cases pushed'.symm.trans pushed
  exact asleep.turn (by rw [Function.update_of_ne (by simp)]) done

theorem Orderly.acquire {sem : S} {count : BitVec 32} (done : s.semaphoreAcquire regs sem count = some (esp, s')) :
    s.Turns s' live lines (¬ s.semCount sem ≥ count) := by
  rw [semaphoreAcquire] at done
  by_cases enough : s.semCount sem ≥ count
  · rw [if_pos enough] at done
    cases done
    rw [decide_eq_false (not_not_intro enough)]
    exact ⟨⟨lines, alive, .becomes (orderly.linked.withSemCount sem _) orderly.apart, List.prefix_refl _⟩, fun _ => rfl⟩
  · rw [if_neg enough] at done
    rw [decide_eq_true enough]
    have marked := orderly.linked.modify (f := fun r => { r with state := .block, waitingForResourceCount := count })
      ⟨fun _ => rfl, fun _ => rfl, fun _ => rfl, fun _ => rfl, fun _ => rfl⟩ s.currentProcess
    obtain ⟨t, pushed, becomes⟩ := marked.linked.pushQueue (orderly.apart.running _ rfl).2 (.waiting sem)
    have waits := orderly.enqueue (marked.trans becomes) (by simp) fun r member => by
      simpa [or_comm] using member
    obtain ⟨u, pushed', done⟩ := Option.bind_eq_some_iff.mp done
    cases pushed'.symm.trans pushed
    exact waits.turn (by rw [Function.update_of_ne (by simp)]) done

theorem Orderly.release {sem : S} {count : BitVec 32} (done : s.semaphoreRelease sem count = some s') : s.Turns s' live lines false := by
  obtain ⟨t, front, back, done', serves⟩ := orderly.linked.semaphoreRelease sem count
  cases done.symm.trans done'
  have current := serves.becomes.current
  refine ⟨⟨Scheduler.released lines (.waiting sem) front back, alive, ?_, prefix_released (.waiting sem) front back⟩, fun _ => current⟩
  rw [current]
  exact orderly.released (by simp) serves.line serves.becomes

theorem Orderly.kill {exitCode : BitVec 32} (done : s.schedulerKillProcess regs exitCode = some (esp, s')) :
    s.Turns s' live lines ((s.proc s.currentProcess).id ≠ 1) := by
  rw [schedulerKillProcess] at done
  by_cases isFirst : (s.proc s.currentProcess).id = 1
  · rw [if_pos isFirst] at done
    cases done
    rw [decide_eq_false (not_not_intro isFirst)]
    exact ⟨⟨lines, alive, orderly, List.prefix_refl _⟩, fun _ => rfl⟩
  rw [if_neg isFirst] at done
  rw [decide_eq_true isFirst]
  obtain ⟨isAlive, free⟩ := orderly.apart.running _ rfl
  have parent : s.parentOf s.currentProcess = (s.proc s.currentProcess).attachedFrom := if_neg isFirst
  cases attached : (s.proc s.currentProcess).attachedFrom with
  | none =>
      obtain ⟨t, pushed, becomes⟩ := orderly.linked.pushQueue free .delete
      have apart := orderly.apart.kill (l := lines .ready) fun r => by simp [parent, attached]
      rw [Function.update_eq_self] at apart
      simp only [attached, Option.bind_eq_bind, Option.bind_some, pushed] at done
      exact (Orderly.becomes becomes apart).turn (by rw [Function.update_of_ne (by simp)]) done
  | some q =>
      obtain ⟨-, notRunning, qFree⟩ := orderly.apart.waits _ isAlive q (parent.trans attached)
      have other : s.currentProcess ≠ q := fun same => notRunning (congrArg some same)
      have marked := orderly.linked.modify (f := fun r => { r with receivedExitCode := exitCode })
        ⟨fun _ => rfl, fun _ => rfl, fun _ => rfl, fun _ => rfl, fun _ => rfl⟩ q
      obtain ⟨t, woken, first⟩ := marked.linked.schedulerPushReady qFree
      have freeNow : ∀ j, s.currentProcess ∉ Function.update lines .ready (lines .ready ++ [q]) j := by
        intro j
        by_cases isReady : j = .ready
        · subst isReady
          simpa [other] using free .ready
        · rw [Function.update_of_ne isReady]
          exact free j
      have current : t.currentProcess = s.currentProcess := first.current
      obtain ⟨u, pushed, second⟩ := first.linked.pushQueue freeNow .delete
      rw [Function.update_of_ne (by simp)] at second
      have apart := orderly.apart.kill (l := lines .ready ++ [q]) fun r => by simp [parent, attached, eq_comm]
      simp only [attached, Option.bind_eq_bind, woken, Option.bind_some, current, pushed] at done
      refine (Orderly.becomes ((marked.trans first).trans second) apart).turn ?_ done
      rw [Function.update_of_ne (by simp), Function.update_self]
      exact List.prefix_append _ _

omit orderly [DecidableEq S] in
theorem parentOf_modify (s : Scheduler S) (p : Addr) (change : Process → Process) :
    (s.modify p change).parentOf =
      Function.update s.parentOf p (if (change (s.proc p)).id = 1 then none else (change (s.proc p)).attachedFrom) := by
  funext r
  by_cases same : r = p
  · subst same
    rw [parentOf, proc_modify_self, Function.update_self]
  · rw [parentOf, proc_modify_ne same, Function.update_of_ne same, parentOf]

omit orderly in
theorem Orderly.add {t : Scheduler S} {single run' : Option Addr} (orderly : s.Orderly live lines alive run) (fresh : p ∉ live)
    (linked : t.Linked lines) (parents : t.parentOf = Function.update s.parentOf p single)
    (attached : single = none ∨ single = run ∧ run' = none) (stays : run' = none ∨ run' = run) (free : ∀ k, p ∉ lines k)
    (done : t.schedulerAddProcess p = some s') :
    s'.Orderly (live ++ [p]) (Function.update lines .ready (lines .ready ++ [p])) (insert p alive) run' ∧
      s'.currentProcess = t.currentProcess := by
  have marked := linked.modify (f := fun r => { r with state := .ready })
    ⟨fun _ => rfl, fun _ => rfl, fun _ => rfl, fun _ => rfl, fun _ => rfl⟩ p
  have relists := relists_globalListPush (t.modify p fun r => { r with state := .ready }) p
  obtain ⟨u, pushed, becomes⟩ := (relists.linked marked.linked).pushQueue free .ready
  cases done.symm.trans pushed
  refine ⟨⟨becomes.linked, ?_⟩, becomes.current.trans (relists.current.trans marked.current)⟩
  rw [becomes.quiet.parentOf, parentOf_congr relists.id relists.attached, marked.quiet.parentOf, parents]
  exact orderly.apart.enter fresh attached stays

theorem Orderly.addNew {record : Process} (fresh : p ∉ live) (single : record.attachedFrom = none)
    (done : (s.modify p fun _ => record).schedulerAddProcess p = some s') : s.Turns s' (live ++ [p]) lines false := by
  have free := orderly.apart.unlisted_free fresh
  have parents := parentOf_modify s p fun _ => record
  have none : (if record.id = 1 then none else record.attachedFrom) = none := by
    rw [single, ite_self]
  rw [none] at parents
  obtain ⟨orderly', current⟩ := orderly.add fresh (orderly.linked.fresh free fun _ => record) parents (.inl rfl) (.inr rfl) free done
  refine ⟨⟨_, _, current ▸ orderly', ?_⟩, fun _ => current⟩
  rw [Function.update_self]
  exact List.prefix_append _ _

theorem Orderly.attach {record : Process} (fresh : p ∉ live) (kernel : regs.cs &&& 3#32 = 0#32)
    (done : (s.modify p fun _ => record).schedulerAttach regs p = some (esp, s')) : s.Turns s' (live ++ [p]) lines true := by
  have free := orderly.apart.unlisted_free fresh
  rw [schedulerAttach, if_neg (not_not_intro kernel)] at done
  obtain ⟨t, added, done⟩ := Option.bind_eq_some_iff.mp done
  have parents := parentOf_modify (s.modify p fun _ => record) p fun r => { r with attachedFrom := some s.currentProcess }
  rw [parentOf_modify s p fun _ => record, Function.update_idem] at parents
  obtain ⟨orderly', -⟩ := orderly.add fresh ((orderly.linked.fresh free fun _ => record).fresh free _) parents
    (by split_ifs; exacts [.inl rfl, .inr ⟨rfl, rfl⟩]) (.inl rfl) free added
  refine orderly'.turn ?_ done
  rw [Function.update_self]
  exact List.prefix_append _ _

theorem Orderly.init (sem : S) (count : BitVec 32) : s.Turns (s.semaphoreInit sem count) live lines false := by
  have inside : ∀ k r, r ∈ Function.update lines (.waiting sem) [] k → r ∈ lines k := by
    intro k r member
    by_cases here : k = .waiting sem
    · subst here
      rw [Function.update_self] at member
      cases member
    · rwa [Function.update_of_ne here] at member
  have linked : (s.semaphoreInit sem count).Linked (Function.update lines (.waiting sem) []) := by
    refine ⟨fun k => ?_, fun j k other r member member' => orderly.linked.apart j k other r (inside j r member) (inside k r member')⟩
    by_cases here : k = .waiting sem
    · subst here
      have reset : (s.semaphoreInit sem count).queue (.waiting sem) = processQueueInit := Function.update_self _ _ _
      rw [reset, Function.update_self]
      exact ⟨rfl, nofun, rfl⟩
    · have kept : (s.semaphoreInit sem count).queue k = s.queue k := Function.update_of_ne here _ _
      rw [kept, Function.update_of_ne here]
      exact orderly.linked.holds k
  refine ⟨⟨_, alive, ⟨linked, orderly.apart.shift ?_ ?_ (fun c runs => .inl runs) ?_⟩, ?_⟩, fun _ => rfl⟩
  · exact fun c runs k member => (orderly.apart.running c runs).2 k (inside k c member)
  · exact fun k notDelete r member => .inr ⟨k, notDelete, inside k r member⟩
  · exact Function.update_of_ne (by simp) _ _
  · rw [Function.update_of_ne (by simp)]
    exact List.prefix_refl _

/-- The timer interrupt switches when the time of the running process is up. -/
def timeIsUp (s : Scheduler S) : Bool :=
  match (Scheduler.deleteLoop (s.queue .delete).size s).bind fun r => r.2.wakeSleepers with
  | some s => ((s.proc s.currentProcess).aliveTicks + 1#64) % processAliveTicks = 0#64
  | none => false

theorem Orderly.switch {deleted : List Addr} (done : s.schedulerSwitch regs = some (deleted, esp, s')) :
    deleted = lines .delete ∧ s.Turns s' (live.filter (· ∉ lines .delete)) lines s.timeIsUp := by
  obtain ⟨⟨deleted', t⟩, loop, done⟩ := Option.bind_eq_some_iff.mp done
  obtain ⟨u, woke, done⟩ := Option.bind_eq_some_iff.mp done
  obtain ⟨rfl, linked, parents, current⟩ := orderly.linked.deleteLoop loop
  obtain ⟨u', front, back, woke', wakes⟩ := linked.wakeSleepers
  cases woke.symm.trans woke'
  have afterDelete : t.Orderly (live.filter (· ∉ lines .delete)) (Function.update lines .delete []) alive (some s.currentProcess) :=
    ⟨linked, parents ▸ orderly.apart.delete⟩
  have afterWake := afterDelete.released (by simp) wakes.line wakes.becomes
  have ticked := wakes.becomes.linked.modify (f := fun r => { r with aliveTicks := r.aliveTicks + 1#64, savedEsp := regs.addr })
    ⟨fun _ => rfl, fun _ => rfl, fun _ => rfl, fun _ => rfl, fun _ => rfl⟩ u.currentProcess
  have same : u.currentProcess = s.currentProcess := wakes.becomes.current.trans current
  have order : Function.update lines .delete [] .ready <+:
      Scheduler.released (Function.update lines .delete []) .sleep front back .ready :=
    prefix_released .sleep front back
  rw [Function.update_of_ne (by simp)] at order
  have afterTick := Orderly.becomes ticked afterWake.apart
  rw [← same] at afterTick
  obtain ⟨v, counted⟩ : ∃ v, v = u.modify u.currentProcess fun r => { r with aliveTicks := r.aliveTicks + 1#64, savedEsp := regs.addr } :=
    ⟨_, rfl⟩
  have current' : v.currentProcess = u.currentProcess := by rw [counted]; rfl
  have up : s.timeIsUp = decide ((v.proc u.currentProcess).aliveTicks % processAliveTicks = 0#64) := by
    simp only [timeIsUp, loop, Option.bind_some, woke, counted, proc_modify_self]
  dsimp only at done
  rw [← counted] at done afterTick
  rw [current'] at done
  rw [← current'] at afterTick
  rw [up]
  split_ifs at done with expired
  · obtain ⟨⟨esp', s''⟩, next, result⟩ := Option.bind_eq_some_iff.mp done
    cases result
    rw [decide_eq_true expired]
    obtain ⟨⟨lines', alive', orderly', later⟩, -⟩ := afterTick.yield next
    exact ⟨rfl, ⟨lines', alive', orderly', order.trans later⟩, nofun⟩
  · cases done
    rw [decide_eq_false expired]
    exact ⟨rfl, ⟨_, alive, afterTick, order⟩, fun _ => current'.trans same⟩

end Scheduler
end Kerosene.Sched
