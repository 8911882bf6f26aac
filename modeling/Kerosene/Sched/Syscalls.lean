import Kerosene.Sched.RoundRobin

/-!
# The system call dispatcher

Handlers are called with the words that the caller left on the stack; what they take them for is theirs. The handlers
outside the scheduler are a parameter.
-/

namespace Kerosene.Sched
open Lib Running

inductive Syscall where
  | time
  | semaphoreCreate
  | semaphoreAcquire
  | semaphoreRelease
  | semaphoreKacquire
  | yield
  | attach
  | spawn
  | kill
  | sleep
  | open_
  | close
  | lock
  | unlock
  | read
  | write
  | seek
  | mount

-- the registers that a trap saves, at `addr` on the stack
structure TrapFrame where
  addr : BitVec 32
  cs : BitVec 32
  eax : BitVec 32
  ebx : BitVec 32
  ecx : BitVec 32
  edx : BitVec 32
  esi : BitVec 32
  edi : BitVec 32

namespace Syscall

def all : List Syscall :=
  [time, semaphoreCreate, semaphoreAcquire, semaphoreRelease, semaphoreKacquire, yield, attach, spawn, kill, sleep, open_,
    close, lock, unlock, read, write, seek, mount]

def contextSwitchers : Syscall → Bool
  | semaphoreAcquire | semaphoreKacquire | yield | attach | kill | sleep | lock => true
  | _ => false

end Syscall

variable {S : Type} [DecidableEq S]

abbrev Handler (S : Type) := TrapFrame → List (BitVec 32) → Scheduler S → Option (BitVec 32 × TrapFrame × Scheduler S)

-- a `bool` parameter is the low byte of its word
def boolWord (word : BitVec 32) : Bool := word.setWidth 8 ≠ 0#8

-- a context switcher takes the saved registers first
def contextSwitcher (call : Regs → BitVec 32 → Scheduler S → Option (BitVec 32 × Scheduler S)) : Handler S :=
  fun frame words s => match words with
    | regs :: arg :: _ => (call ⟨regs, frame.cs⟩ arg s).map fun (esp, s) => (esp, frame, s)
    | _ => none

def syscalls (others : Syscall → Handler S) : Syscall → Handler S
  | .yield => contextSwitcher fun regs addBack s => s.schedulerToNextProcess regs (boolWord addBack)
  | .attach => contextSwitcher fun regs proc s => s.schedulerAttach regs proc.toNat
  | .kill => contextSwitcher fun regs exitCode s => s.schedulerKillProcess regs exitCode
  | .sleep => contextSwitcher fun regs ticks s => s.schedulerSetSleep regs ticks
  | call => others call

def syscallDispatcher (others : Syscall → Handler S) (regs : TrapFrame) (s : Scheduler S) :
    Option (BitVec 32 × TrapFrame × Scheduler S) :=
  match Syscall.all[regs.eax.toNat]? with
  | none => some (regs.addr, regs, s)
  | some call =>
      let words := [regs.ebx, regs.ecx, regs.edx, regs.esi, regs.edi]
      if call.contextSwitchers then syscalls others call regs (regs.addr :: words) s
      else (syscalls others call regs words s).map fun (ret, frame, s) => (frame.addr, { frame with eax := ret }, s)

-- the registers at the trap: only `eax` is loaded, with `SYSCALL_YIELD`
def syscallYield (regs : TrapFrame) : TrapFrame := { regs with eax := 5#32 }

theorem dispatch_yield (others : Syscall → Handler S) (regs : TrapFrame) (s : Scheduler S) :
    syscallDispatcher others (syscallYield regs) s =
      (s.schedulerToNextProcess ⟨regs.addr, regs.cs⟩ (boolWord regs.ebx)).map fun (esp, s) => (esp, syscallYield regs, s) := rfl

namespace Scheduler
variable {s s' : Scheduler S} {live : List Addr} {lines : QueueId S → List Addr} {alive : Set Addr}

/-- The processes that were ready keep their order, and the one that ran comes behind them. -/
structure KeepsCaller (s s' : Scheduler S) : Prop where
  line : s'.currentProcess :: s'.members .ready = s.members .ready ++ [s.currentProcess]
  last : s.members .ready ≠ [] → (s'.members .ready).getLast? = some s.currentProcess

theorem Orderly.keepsCaller (orderly : s.Orderly live lines alive (some s.currentProcess)) (regs : Regs) :
    ∃ esp s', s.schedulerToNextProcess regs true = some (esp, s') ∧ s.KeepsCaller s' := by
  obtain ⟨p, l, line⟩ : ∃ p l, lines .ready ++ [s.currentProcess] = p :: l := by
    cases lines .ready with
    | nil => exact ⟨_, _, rfl⟩
    | cons a k => exact ⟨_, _, rfl⟩
  obtain ⟨esp, s', done, becomes⟩ := orderly.linked.toNext_back (orderly.apart.running _ rfl).2 line regs
  refine ⟨esp, s', done, ?_, fun others => ?_⟩
  · rw [becomes.current, becomes.linked.members, orderly.linked.members, Function.update_self, line]
  · rw [becomes.linked.members, Function.update_self]
    rw [orderly.linked.members] at others
    obtain ⟨q, k, ready⟩ := List.exists_cons_of_ne_nil others
    rw [ready, List.cons_append] at line
    cases line
    exact List.getLast?_concat

theorem Orderly.losesCaller {regs : Regs} {esp : BitVec 32} (orderly : s.Orderly live lines alive (some s.currentProcess))
    (done : s.schedulerToNextProcess regs false = some (esp, s')) : ¬ s.KeepsCaller s' := by
  intro keeps
  obtain ⟨l, line, orderly'⟩ := orderly.stops.toNext done
  have same := keeps.line
  rw [orderly'.linked.members, orderly.linked.members, Function.update_self, ← line] at same
  exact absurd (congrArg List.length same) (by simp)

end Scheduler

namespace History
variable {h : History S}

/-- `ebx` is what the caller happened to hold in it. -/
theorem yield_keeps_caller_iff (proc : Heap) (semCount : S → BitVec 32) (idle : Addr) (pageDirectory tssStack : BitVec 32)
    (isIdle : (proc idle).id = 1) (run : serving.Reaches ⟨initial proc semCount idle pageDirectory tssStack, []⟩ h)
    (others : Syscall → Handler S) (regs : TrapFrame) :
    (∃ esp frame s', syscallDispatcher others (syscallYield regs) h.running.sched = some (esp, frame, s') ∧
      h.running.sched.KeepsCaller s') ↔ regs.ebx.setWidth 8 ≠ 0#8 := by
  obtain ⟨lines, alive, orderly⟩ := (served_of_reaches proc semCount idle pageDirectory tssStack isIdle run).orderly
  rw [dispatch_yield]
  constructor
  · rintro ⟨esp, frame, s', dispatched, keeps⟩ zero
    obtain ⟨⟨esp', s''⟩, done, same⟩ := Option.map_eq_some_iff.mp dispatched
    cases same
    rw [boolWord, zero] at done
    exact orderly.losesCaller done keeps
  · intro nonzero
    obtain ⟨esp, s', done, keeps⟩ := orderly.keepsCaller ⟨regs.addr, regs.cs⟩
    rw [boolWord, decide_eq_true nonzero, done]
    exact ⟨_, _, s', rfl, keeps⟩

-- the registers at a trap, of which `ebx` is looked at
def trapped (ebx : BitVec 32) : TrapFrame := ⟨0#32, 0#32, 0#32, ebx, 0#32, 0#32, 0#32, 0#32⟩

theorem second_runs : ∃ h : History Unit, serving.Reaches ⟨bootedWith none, []⟩ h ∧ h.running.sched.currentProcess = 2 ∧
    h.running.sched.members .ready = [1] ∧
      (syscallDispatcher (fun _ _ _ _ => none) (syscallYield (trapped 0#32)) h.running.sched).map
        (fun (_, _, s) => (s.currentProcess, s.members .ready)) = some (1, []) := by
  have run := ((Machine.Reaches.refl (M := serving) (⟨bootedWith none, []⟩ : History Unit)).snoc
    (i := SchedEvent.call (.add 2 (blankProcess 2 none))) ⟨by decide, rfl⟩ rfl).snoc
    (i := SchedEvent.call (.yield ⟨0#32, 0#32⟩)) trivial rfl
  exact ⟨_, run, rfl, rfl, rfl⟩

theorem yield_keeps_caller_one : ∃ h : History Unit, serving.Reaches ⟨bootedWith none, []⟩ h ∧ h.running.sched.currentProcess = 2 ∧
    ∃ esp frame s', syscallDispatcher (fun _ _ _ _ => none) (syscallYield (trapped 1#32)) h.running.sched = some (esp, frame, s') ∧
      h.running.sched.KeepsCaller s' := by
  obtain ⟨h, run, runs, -⟩ := second_runs
  exact ⟨h, run, runs, (yield_keeps_caller_iff _ _ 1 _ _ rfl run (fun _ _ _ _ => none) (trapped 1#32)).mpr (by decide)⟩

/-- With 0 in `ebx` the process that yields is gone. -/
theorem yield_loses_caller : ∃ h : History Unit, serving.Reaches ⟨bootedWith none, []⟩ h ∧ h.running.sched.currentProcess = 2 ∧
    ∃ esp frame s', syscallDispatcher (fun _ _ _ _ => none) (syscallYield (trapped 0#32)) h.running.sched = some (esp, frame, s') ∧
      s'.currentProcess = 1 ∧ s'.members .ready = [] ∧ ¬ h.running.sched.KeepsCaller s' := by
  obtain ⟨h, run, runs, ready, lost⟩ := second_runs
  obtain ⟨⟨esp, frame, s'⟩, dispatched, left⟩ := Option.map_eq_some_iff.mp lost
  obtain ⟨current, empty⟩ := Prod.mk.inj left
  refine ⟨h, run, runs, esp, frame, s', dispatched, current, empty, fun keeps => ?_⟩
  have line := keeps.line
  rw [ready, current, empty, runs] at line
  cases line

end History
end Kerosene.Sched
