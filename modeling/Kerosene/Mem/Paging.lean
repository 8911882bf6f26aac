import Kerosene.Mem.Pmm

/-!
# Page directories, page tables and vmmngr.c

Physical memory is a map from frame addresses to the 1024 words of the frame. The kernel reaches
page tables only through virtual addresses, so `load` and `store` walk the active directory as the
processor does, and answer `none` where it would fault. The TLB is not modelled: every entry the
source changes is flushed before it is used again.
-/

namespace Kerosene.Mem

def kernelStart : Word := 0xc0000000#32
def vmmngrPd : Word := 0xfffff000#32
def vmmngrTempTable : Word := 0xc03fe000#32
def vmmngrTempPd : Word := 0xc03ff000#32
def pageFrameBits : Word := 0xfffff000#32
def entryPresent : Word := 1#32
def entryWritable : Word := 2#32

def pageDirectoryIndex (addr : Word) : Nat := ((addr >>> 22) &&& 0x3ff#32).toNat
def pageTableIndex (addr : Word) : Nat := ((addr >>> 12) &&& 0x3ff#32).toNat
def pageTableAddr (idx : Nat) : Word := 0xffc00000#32 + BitVec.ofNat 32 (idx * 4096)

-- the index of the word at `addr` in its frame, and the address of `table->entry[idx]`
def wordIndex (addr : Word) : Nat := ((addr &&& 0xfff#32) >>> 2).toNat
def entryAddr (table : Word) (idx : Nat) : Word := table + BitVec.ofNat 32 (4 * idx)

def isPresent (entry : Word) : Bool := entry &&& entryPresent != 0#32
def frameOf (entry : Word) : Word := entry &&& pageFrameBits

inductive MemErr where
  | success
  | oom
  deriving DecidableEq

structure Vm where
  word : Word → Nat → Word
  cr3 : Word
  pmm : Pmm

namespace Vm

def write (m : Vm) (frame : Word) (idx : Nat) (value : Word) : Vm :=
  { m with word := Function.update m.word frame (Function.update (m.word frame) idx value) }

/-- The frame that the directory at `root` maps `addr` to. -/
def walk (m : Vm) (root addr : Word) : Option Word :=
  let pde := m.word root (pageDirectoryIndex addr)
  if isPresent pde then
    let pte := m.word (frameOf pde) (pageTableIndex addr)
    if isPresent pte then some (frameOf pte) else none
  else none

def load (m : Vm) (addr : Word) : Option Word :=
  (m.walk m.cr3 addr).map fun frame => m.word frame (wordIndex addr)

def store (m : Vm) (addr value : Word) : Option Vm :=
  (m.walk m.cr3 addr).map fun frame => m.write frame (wordIndex addr) value

def pageEntrySetFrame (m : Vm) (pe addr : Word) : Option Vm := do
  let old ← m.load pe
  m.store pe ((old &&& ~~~pageFrameBits) ||| addr)

-- the attributes are a `uint16_t`, of which the low 12 bits are kept
def pageEntryAddAttrib (m : Vm) (pe attrib : Word) : Option Vm := do
  let old ← m.load pe
  m.store pe (old ||| (attrib &&& 0xfff#32))

def tempPdEntry : Word :=
  entryAddr (pageTableAddr (pageDirectoryIndex vmmngrTempPd)) (pageTableIndex vmmngrTempPd)

def tempTableEntry : Word :=
  entryAddr (pageTableAddr (pageDirectoryIndex vmmngrTempTable)) (pageTableIndex vmmngrTempTable)

def mapTemporaryPd (m : Vm) (pd : Word) : Option Vm :=
  m.store tempPdEntry (pd ||| entryPresent ||| entryWritable)

def unmapTemporaryPd (m : Vm) : Option Vm := m.store tempPdEntry 0#32

def mapTemporaryPt (m : Vm) (phys : Word) : Option Vm :=
  m.store tempTableEntry (phys ||| entryPresent ||| entryWritable)

def unmapTemporaryPt (m : Vm) : Option Vm := m.store tempTableEntry 0#32

-- the directory as the function sees it: the recursive window, or the temporary one
def openDirectory (m : Vm) (pd : Word) : Option (Word × Vm) :=
  if pd = 0#32 then some (vmmngrPd, m) else do
    let m ← m.mapTemporaryPd pd
    return (vmmngrTempPd, m)

def closeDirectory (m : Vm) (pd : Word) : Option Vm :=
  if pd = 0#32 then some m else m.unmapTemporaryPd

-- the table of a present directory entry, and whether the temporary window was used
def openTable (m : Vm) (pd entry virt : Word) : Option (Word × Bool × Vm) :=
  if pd = 0#32 then some (pageTableAddr (pageDirectoryIndex virt), false, m) else do
    let m ← m.mapTemporaryPt (frameOf entry)
    return (vmmngrTempTable, true, m)

def closeTable (m : Vm) (mappedTempTable : Bool) : Option Vm :=
  if mappedTempTable then m.unmapTemporaryPt else some m

/-- `memset(table, 0, sizeof(page_table_t))`, from word `idx` on, `n` words. -/
def clearTable (m : Vm) (table : Word) : (n idx : Nat) → Option Vm
  | 0, _ => some m
  | n + 1, idx => do
      let m ← m.store (entryAddr table idx) 0#32
      clearTable m table n (idx + 1)

def vmmngrToPhysicalAddr (m : Vm) (pd virt : Word) : Option (Word × Vm) := do
  let (virtPd, m) ← m.openDirectory pd
  let pde := entryAddr virtPd (pageDirectoryIndex virt)
  let entry ← m.load pde
  if !isPresent entry then
    let m ← m.closeDirectory pd
    return (0#32, m)
  let (table, mapped, m) ← m.openTable pd entry virt
  let pte := entryAddr table (pageTableIndex virt)
  let page ← m.load pte
  let m ← m.closeTable mapped
  let m ← m.closeDirectory pd
  if !isPresent page then return (0#32, m)
  -- the entry is read once more, after the windows are closed
  let final ← m.load pte
  return (frameOf final, m)

def vmmngrMap (m : Vm) (pd phys virt flags : Word) : Option (MemErr × Vm) := do
  let (virtPd, m) ← m.openDirectory pd
  let pde := entryAddr virtPd (pageDirectoryIndex virt)
  let entry ← m.load pde
  if !isPresent entry then
    let (newPhys, pmm) := m.pmm.allocBlock
    let m := { m with pmm := pmm }
    if newPhys = 0#32 then
      let m ← m.closeDirectory pd
      return (.oom, m)
    let m ← m.pageEntryAddAttrib pde (flags ||| entryPresent)
    let m ← m.pageEntrySetFrame pde newPhys
    let m ← m.mapTemporaryPt newPhys
    let m ← m.clearTable vmmngrTempTable 1024 0
    let pte := entryAddr vmmngrTempTable (pageTableIndex virt)
    let m ← m.pageEntryAddAttrib pte (entryPresent ||| flags)
    let m ← m.pageEntrySetFrame pte phys
    let m ← m.closeTable true
    let m ← m.closeDirectory pd
    return (.success, m)
  let (table, mapped, m) ← m.openTable pd entry virt
  let pte := entryAddr table (pageTableIndex virt)
  let m ← m.pageEntryAddAttrib pte (entryPresent ||| flags)
  let m ← m.pageEntrySetFrame pte phys
  let m ← m.closeTable mapped
  let m ← m.closeDirectory pd
  return (.success, m)

def vmmngrUnmap (m : Vm) (pd virt : Word) : Option Vm := do
  let (virtPd, m) ← m.openDirectory pd
  let pde := entryAddr virtPd (pageDirectoryIndex virt)
  let entry ← m.load pde
  if !isPresent entry then return ← m.closeDirectory pd
  let (table, mapped, m) ← m.openTable pd entry virt
  let pte := entryAddr table (pageTableIndex virt)
  let page ← m.load pte
  let m ← if isPresent page then m.store pte 0#32 else some m
  let m ← m.closeTable mapped
  m.closeDirectory pd

/-- `memcpy(virt_pd, kernel_pd, sizeof(page_directory_t))`; `kernel_pd_data` lies in the kernel
image, which is mapped from the start. -/
def copyDirectory (m : Vm) (src dst : Word) : (n idx : Nat) → Option Vm
  | 0, _ => some m
  | n + 1, idx => do
      let m ← m.store (entryAddr dst idx) (m.word src idx)
      copyDirectory m src dst n (idx + 1)

def vmmngrAllocPageDirectory (m : Vm) (kernelPd : Word) : Option (Word × Vm) := do
  let (pd, pmm) := m.pmm.allocBlock
  let m := { m with pmm := pmm }
  if pd = 0#32 then return (0#32, m)
  let m ← m.mapTemporaryPd pd
  let m ← m.copyDirectory kernelPd vmmngrTempPd 1024 0
  let finalPde := entryAddr vmmngrTempPd 1023
  let m ← m.pageEntryAddAttrib finalPde (entryPresent ||| entryWritable)
  let m ← m.pageEntrySetFrame finalPde pd
  let m ← m.unmapTemporaryPd
  return (pd, m)

/-- The loop over `virt_table->entry[j]`, `n` turns from `j`. -/
def freeEntries (m : Vm) (table : Word) : (n j : Nat) → Option Vm
  | 0, _ => some m
  | n + 1, j => do
      let entry ← m.load (entryAddr table j)
      let m := if frameOf entry ≠ 0#32 then { m with pmm := m.pmm.freeBlock (frameOf entry) } else m
      freeEntries m table n (j + 1)

/-- The loop over `virt_pd->entry[i]`, `n` turns from `i`. -/
def freeTables (m : Vm) (virtPd : Word) : (n i : Nat) → Option Vm
  | 0, _ => some m
  | n + 1, i => do
      if BitVec.ofNat 32 (i * 4096 * 1024) ≥ kernelStart then return m
      let entry ← m.load (entryAddr virtPd i)
      if entry = 0#32 then return ← freeTables m virtPd n (i + 1)
      let physTable := frameOf entry
      let m ← m.mapTemporaryPt physTable
      let m ← m.freeEntries vmmngrTempTable 1024 0
      let m := { m with pmm := m.pmm.freeBlock physTable }
      let m ← m.unmapTemporaryPt
      freeTables m virtPd n (i + 1)

def vmmngrFreePageDirectory (m : Vm) (pd : Word) : Option Vm := do
  let m ← m.mapTemporaryPd pd
  let m ← m.freeTables vmmngrTempPd 1024 0
  let m := { m with pmm := m.pmm.freeBlock pd }
  m.unmapTemporaryPd

def vmmngrSwitchPageDirectory (m : Vm) (dir : Word) : Vm := { m with cr3 := dir }

/-- The lazy copy of `page_fault_handler`; `false` when the fault is not resolved (a panic). -/
def pageFaultHandler (m : Vm) (kernelPd faulting : Word) : Option (Bool × Vm) := do
  if faulting < kernelStart then return (false, m)
  let cpyPde := entryAddr vmmngrPd (pageDirectoryIndex faulting)
  let own ← m.load cpyPde
  let src := m.word kernelPd (pageDirectoryIndex faulting)
  if !isPresent own && isPresent src then
    let m ← m.store cpyPde src
    return (true, m)
  return (false, m)

end Vm
end Kerosene.Mem
