import Kerosene.Sched.Queue

/-!
# scheduler.c and semaphore.c

`S` names the semaphores of the system. Interrupts are off in all of these functions, so spin locks
are never contended and are left out.
-/

namespace Kerosene.Sched

inductive QueueId (S : Type) where
  | ready
  | sleep
  | delete
  | waiting (sem : S)
  deriving DecidableEq

-- the saved registers on the stack: their address, and the code segment they return to
structure Regs where
  addr : BitVec 32
  cs : BitVec 32

def processAliveTicks : BitVec 64 := 4#64

structure Scheduler (S : Type) where
  proc : Heap
  queue : QueueId S → ProcessQueue
  semCount : S → BitVec 32
  currentProcess : Addr
  globalListBottom : Addr
  globalListSize : Nat
  globalSleepTicks : BitVec 64
  pageDirectory : BitVec 32
  tssStack : BitVec 32

namespace Scheduler
variable {S : Type} [DecidableEq S]

def modify (s : Scheduler S) (p : Addr) (change : Process → Process) : Scheduler S :=
  { s with proc := Function.update s.proc p (change (s.proc p)) }

def withQueue (s : Scheduler S) (k : QueueId S) (proc : Heap) (q : ProcessQueue) : Scheduler S :=
  { s with proc := proc, queue := Function.update s.queue k q }

def pushQueue (s : Scheduler S) (k : QueueId S) (p : Addr) : Option (Scheduler S) :=
  (processQueuePush s.proc (s.queue k) p).map fun (proc, q) => s.withQueue k proc q

def members (s : Scheduler S) (k : QueueId S) : List Addr := s.proc.walk (s.queue k).size (s.queue k).top

def popQueue (s : Scheduler S) (k : QueueId S) : Option Addr × Scheduler S :=
  let (p, q) := processQueuePop s.proc (s.queue k)
  (p, s.withQueue k s.proc q)

def globalListPush (s : Scheduler S) (p : Addr) : Scheduler S :=
  let s := s.modify s.globalListBottom fun r => { r with globalNext := some p }
  let s := s.modify p fun r => { r with globalPrev := some s.globalListBottom, globalNext := none }
  { s with globalListBottom := p, globalListSize := s.globalListSize + 1 }

-- the idle process is first in the list, so every other one has a predecessor
def globalListPop (s : Scheduler S) (p : Addr) : Option (Scheduler S) := do
  let prev ← (s.proc p).globalPrev
  let next := (s.proc p).globalNext
  let s := s.modify prev fun r => { r with globalNext := next }
  let s := match next with
    | some n => s.modify n fun r => { r with globalPrev := some prev }
    | none => s
  return { s with
    globalListBottom := if p = s.globalListBottom then prev else s.globalListBottom,
    globalListSize := s.globalListSize - 1 }

def schedulerPushReady (s : Scheduler S) (p : Addr) : Option (Scheduler S) :=
  (s.modify p fun r => { r with state := .ready }).pushQueue .ready p

def schedulerAddProcess (s : Scheduler S) (p : Addr) : Option (Scheduler S) :=
  ((s.modify p fun r => { r with state := .ready }).globalListPush p).pushQueue .ready p

-- the process popped from the ready queue takes over
def activate (s : Scheduler S) (p : Addr) : BitVec 32 × Scheduler S :=
  let s := s.modify p fun r => { r with state := .active }
  ((s.proc p).savedEsp, { s with
    currentProcess := p, pageDirectory := (s.proc p).pageDirectory, tssStack := (s.proc p).tssEsp0 })

def schedulerToNextProcess (s : Scheduler S) (regs : Regs) (addBack : Bool) :
    Option (BitVec 32 × Scheduler S) := do
  let s := s.modify s.currentProcess fun r => { r with savedEsp := regs.addr }
  let s ← if addBack then s.schedulerPushReady s.currentProcess else some s
  match s.popQueue .ready with
  | (none, _) => none
  | (some p, s) => some (s.activate p)

def schedulerKillProcess (s : Scheduler S) (regs : Regs) (exitCode : BitVec 32) :
    Option (BitVec 32 × Scheduler S) := do
  if (s.proc s.currentProcess).id = 1 then return (regs.addr, s)
  let s ← match (s.proc s.currentProcess).attachedFrom with
    | some q => (s.modify q fun r => { r with receivedExitCode := exitCode }).schedulerPushReady q
    | none => some s
  let s ← s.pushQueue .delete s.currentProcess
  s.schedulerToNextProcess regs false

def schedulerAttach (s : Scheduler S) (regs : Regs) (p : Addr) : Option (BitVec 32 × Scheduler S) := do
  if regs.cs &&& 3#32 ≠ 0#32 then s.schedulerKillProcess regs 13#32
  else
    let s := s.modify p fun r => { r with attachedFrom := some s.currentProcess }
    let s ← s.schedulerAddProcess p
    s.schedulerToNextProcess regs false

def schedulerSetSleep (s : Scheduler S) (regs : Regs) (ticks : BitVec 32) :
    Option (BitVec 32 × Scheduler S) := do
  let s := s.modify s.currentProcess fun r =>
    { r with sleepTicks := ticks.setWidth 64 + s.globalSleepTicks, state := .sleep }
  let (proc, q) ← processQueueSortedPush s.proc (s.queue .sleep) s.currentProcess processSortBySleepTicks
  (s.withQueue .sleep proc q).schedulerToNextProcess regs false

/-- The first loop of `scheduler_switch`, with the processes it gives to `process_delete`. -/
def deleteLoop : (fuel : Nat) → Scheduler S → Option (List Addr × Scheduler S)
  | 0, s => if (s.queue .delete).size = 0 then some ([], s) else none
  | fuel + 1, s =>
      if (s.queue .delete).size = 0 then some ([], s)
      else match s.popQueue .delete with
        | (none, _) => none
        | (some p, s) => do
            let s ← s.globalListPop p
            let (deleted, s) ← deleteLoop fuel s
            return (p :: deleted, s)

/-- The second loop: sleepers whose time has come. -/
def wakeLoop : (fuel : Nat) → Scheduler S → Option (Scheduler S)
  | 0, s => if (s.queue .sleep).top.isNone then some s else none
  | fuel + 1, s => match (s.queue .sleep).top with
      | none => some s
      | some top =>
          if (s.proc top).sleepTicks ≤ s.globalSleepTicks then
            match s.popQueue .sleep with
            | (none, _) => none
            | (some p, s) => (s.schedulerPushReady p).bind (wakeLoop fuel)
          else some s

def withSleepTicks (s : Scheduler S) (ticks : BitVec 64) : Scheduler S := { s with globalSleepTicks := ticks }

def wakeSleepers (s : Scheduler S) : Option (Scheduler S) :=
  if (s.queue .sleep).size = 0 then some s
  else do
    let s := s.withSleepTicks (s.globalSleepTicks + 1#64)
    let s ← wakeLoop (s.queue .sleep).size s
    return if (s.queue .sleep).size = 0 then s.withSleepTicks 0#64 else s

def schedulerSwitch (s : Scheduler S) (regs : Regs) : Option (List Addr × BitVec 32 × Scheduler S) := do
  let (deleted, s) ← deleteLoop (s.queue .delete).size s
  let s ← s.wakeSleepers
  let s := s.modify s.currentProcess fun r => { r with aliveTicks := r.aliveTicks + 1#64, savedEsp := regs.addr }
  if (s.proc s.currentProcess).aliveTicks % processAliveTicks = 0#64 then
    let (esp, s) ← s.schedulerToNextProcess regs true
    return (deleted, esp, s)
  return (deleted, (s.proc s.currentProcess).savedEsp, s)

def withSemCount (s : Scheduler S) (sem : S) (count : BitVec 32) : Scheduler S :=
  { s with semCount := Function.update s.semCount sem count }

def semaphoreInit (s : Scheduler S) (sem : S) (initialCount : BitVec 32) : Scheduler S :=
  { s with
    semCount := Function.update s.semCount sem initialCount,
    queue := Function.update s.queue (.waiting sem) processQueueInit }

def semaphoreAcquire (s : Scheduler S) (regs : Regs) (sem : S) (count : BitVec 32) :
    Option (BitVec 32 × Scheduler S) := do
  if s.semCount sem ≥ count then return (regs.addr, s.withSemCount sem (s.semCount sem - count))
  else
    let s := s.modify s.currentProcess fun r => { r with state := .block, waitingForResourceCount := count }
    let s ← s.pushQueue (.waiting sem) s.currentProcess
    s.schedulerToNextProcess regs false

/-- The loop of `semaphore_release`: waiters are served in order, as long as the count suffices. -/
def serveLoop (sem : S) : (fuel : Nat) → Scheduler S → Option (Scheduler S)
  | 0, s => if (s.queue (.waiting sem)).size = 0 then some s else none
  | fuel + 1, s =>
      if (s.queue (.waiting sem)).size = 0 then some s
      else match (s.queue (.waiting sem)).top with
        | none => none
        | some p =>
            let wanted := (s.proc p).waitingForResourceCount
            if s.semCount sem ≥ wanted then
              let s := ((s.withSemCount sem (s.semCount sem - wanted)).popQueue (.waiting sem)).2
              ((s.modify p fun r => { r with state := .ready }).schedulerPushReady p).bind (serveLoop sem fuel)
            else some s

def semaphoreRelease (s : Scheduler S) (sem : S) (count : BitVec 32) : Option (Scheduler S) :=
  let s := s.withSemCount sem (s.semCount sem + count)
  serveLoop sem (s.queue (.waiting sem)).size s

/-- `scheduler_init`, over the queues as they are initialised statically. -/
def schedulerInit (proc : Heap) (semCount : S → BitVec 32) (idle : Addr) (pageDirectory tssStack : BitVec 32) :
    Scheduler S where
  proc := Function.update proc idle { proc idle with state := .active, globalNext := none, globalPrev := none }
  queue _ := processQueueInit
  semCount := semCount
  currentProcess := idle
  globalListBottom := idle
  globalListSize := 1
  globalSleepTicks := 0#64
  pageDirectory := pageDirectory
  tssStack := tssStack

end Scheduler
end Kerosene.Sched
