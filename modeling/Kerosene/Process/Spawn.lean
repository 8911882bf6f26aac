import Kerosene.Mem.ActiveFilling
import Kerosene.Process.Arguments
import Kerosene.Ramfs.Directory

/-!
# process_new, process_delete and scheduler_spawn

Calls of `kmalloc` and `kfree`, and the frames that are taken for a page directory and released, are
recorded in order. What a call of `kmalloc` answers is given, one answer for each place it is called.
-/

namespace Kerosene.Process
open Mem

-- the sizes of example.env
def userStackSize : Word := 0x10000#32
def kernelStackSize : Word := 0x2000#32

inductive HeapBlock where
  | process
  | descriptorTable
  | stack
  deriving DecidableEq

inductive HeapCall where
  | kmalloc (addr : Word)
  | kfree (addr : Word)
  deriving DecidableEq

/-- What `process_new` gets from elsewhere: for each `kmalloc` its answer (zero for none) and memory
afterwards; memory after the first registers and the arguments have been written to the two stacks,
unless a stack is not mapped; and what the creation of the directory in /proc answers and leaves. -/
structure Supply where
  kmalloc : HeapBlock → Word
  grown : HeapBlock → Vm → Vm
  fillStacks : Vm → Option Vm
  findAndCreateNode : Ramfs.FsErr
  created : Vm → Vm

/-- The fields of `process_t` that name what the process owns. -/
structure NewProcess where
  addr : Word
  isUser : Bool
  pageDirectory : Word
  fileDescriptorTable : Word
  stackAddr : Word
  tssEsp0 : Word

/-- Memory, the heap calls so far, and the frames obtained for the new directory and released. -/
structure Creation where
  vm : Vm
  heap : List HeapCall
  obtained : List Word
  released : List Word

namespace Creation
variable (K : Supply) (s : Creation)

def kmalloc (block : HeapBlock) : Word × Creation :=
  (K.kmalloc block, { s with
    vm := K.grown block s.vm
    heap := if K.kmalloc block = 0#32 then s.heap else s.heap ++ [.kmalloc (K.kmalloc block)] })

def kfree (addr : Word) : Creation := { s with heap := s.heap ++ [.kfree addr] }

def switch (dir : Word) : Creation := { s with vm := s.vm.vmmngrSwitchPageDirectory dir }

def allocMultiBlock (cnt : Word) : Word × Creation :=
  let (phys, pmm) := s.vm.pmm.allocMultiBlock cnt
  (phys, { s with
    vm := { s.vm with pmm := pmm }
    obtained := if phys = 0#32 then s.obtained else framesFrom phys cnt.toNat ++ s.obtained })

/-- `vmmngr_free_page_directory` releases `freedFrames`, one after the other. -/
def freePageDirectory (pd : Word) : Option Creation :=
  (s.vm.vmmngrFreePageDirectory pd).map fun vm => { s with vm := vm, released := s.released ++ s.vm.freedFrames pd }

end Creation

def stackBottom : Word := BitVec.ofNat 32 userStackTop - userStackSize

def stackPage (i : Nat) : Word := stackBottom + BitVec.ofNat 32 (i * 4096)

def stackFlags : Word := entryPresent ||| 4#32 ||| entryWritable

namespace Creation

/-- The loop that maps the stack, `n` pages from page `i` on. Whether a map succeeds is not looked at. -/
def mapStack (s : Creation) (phys : Word) : (n i : Nat) → Option Creation
  | 0, _ => some s
  | n + 1, i => do
      let (_, vm) ← s.vm.vmmngrMap 0#32 (phys + BitVec.ofNat 32 (i * 4096)) (stackPage i) stackFlags
      mapStack { s with vm := vm, obtained := s.vm.tableTaken s.vm.cr3 (stackPage i) ++ s.obtained } phys n (i + 1)

/-- Nothing is open in a process that has not run. -/
def processDelete (s : Creation) (proc : NewProcess) : Option Creation := do
  let s ← if proc.isUser then do
      let s ← s.freePageDirectory proc.pageDirectory
      pure (s.kfree (proc.tssEsp0 - kernelStackSize))
    else pure (s.kfree proc.stackAddr)
  return (s.kfree proc.fileDescriptorTable).kfree proc.addr

-- the label `clean_up`
def cleanUp (s : Creation) (activePd : Word) (proc : NewProcess) : Creation :=
  ((s.switch activePd).kfree proc.fileDescriptorTable).kfree proc.addr

variable (K : Supply)

/-- A user process from the allocation of its kernel stack on. -/
def newTssStack (s : Creation) (activePd : Word) (proc : NewProcess) : Option (Option NewProcess × Creation) :=
  let (stack, s) := s.kmalloc K .stack
  if stack = 0#32 then some (none, s.cleanUp activePd proc)
  else do
    let proc := { proc with tssEsp0 := stack + kernelStackSize }
    let vm ← K.fillStacks s.vm
    let s := { s with vm := K.created (vm.vmmngrSwitchPageDirectory activePd) }
    if K.findAndCreateNode ≠ .success then
      let s ← s.processDelete proc
      return (none, s)
    return (some proc, s)

def newUserStack (s : Creation) (proc : NewProcess) : Option (Option NewProcess × Creation) :=
  let activePd := s.vm.cr3
  let s := s.switch proc.pageDirectory
  let proc := { proc with stackAddr := stackBottom }
  if proc.stackAddr = 0#32 then some (none, s.cleanUp activePd proc)
  else
    let (phys, s) := s.allocMultiBlock (userStackSize / 4096#32)
    if phys = 0#32 then some (none, s.cleanUp activePd proc)
    else do
      let s ← s.mapStack phys (userStackSize / 4096#32).toNat 0
      s.newTssStack K activePd proc

def newKernelStack (s : Creation) (proc : NewProcess) : Option (Option NewProcess × Creation) :=
  let (stack, s) := s.kmalloc K .stack
  if stack = 0#32 then some (none, s.kfree proc.addr)
  else do
    let vm ← K.fillStacks s.vm
    return (some { proc with stackAddr := stack }, { s with vm := vm })

def processNew (s : Creation) (isUser : Bool) (pagedir kernelPageDirectory : Word) :
    Option (Option NewProcess × Creation) :=
  let (addr, s) := s.kmalloc K .process
  if addr = 0#32 then some (none, s)
  else
    let (fdt, s) := s.kmalloc K .descriptorTable
    if fdt = 0#32 then some (none, s.kfree addr)
    else
      let proc : NewProcess := ⟨addr, isUser, if isUser then pagedir else kernelPageDirectory, fdt, 0#32, 0#32⟩
      if isUser then s.newUserStack K proc else s.newKernelStack K proc

/-- `scheduler_spawn` once `elf_load` has succeeded. What follows `process_new` there does not fail. -/
def schedulerSpawn (s : Creation) (isUser : Bool) (pd kernelPageDirectory : Word) : Option (Int × Creation) := do
  let (proc, s) ← s.processNew K isUser pd kernelPageDirectory
  match proc with
  | some _ => return (0, s)
  | none =>
      let s ← if isUser then s.freePageDirectory pd else some s
      return (-1, s)

end Creation
end Kerosene.Process
