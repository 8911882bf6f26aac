import Kerosene.Mem.Paging

/-!
# misc/elf.c

`elf_load` reads the file into a buffer of the kernel heap. An `Image` gives the byte at each
distance from the start of that buffer: the file, and beyond it whatever the kernel has there, with
`none` where a read would fault. What the loader does to memory is also written to a log.
-/

namespace Kerosene.Elf
open Mem

abbrev Byte := BitVec 8
abbrev Image := Word → Option Byte

inductive ElfErr where
  | success
  | oom
  | fileError
  | notElf
  | not32Bits
  | notLittleEndian
  | notX86
  deriving DecidableEq

def elfPtLoad : Word := 1#32

def read16 (image : Image) (offset : Word) : Option Word := do
  let b0 ← image offset
  let b1 ← image (offset + 1#32)
  return b0.setWidth 32 ||| (b1.setWidth 32 <<< 8)

def read32 (image : Image) (offset : Word) : Option Word := do
  let low ← read16 image offset
  let high ← read16 image (offset + 2#32)
  return low ||| (high <<< 16)

def elfValidate (image : Image) : Option ElfErr := do
  let magic ← read32 image 0#32
  if magic ≠ 0x464c457f#32 then return .notElf
  let bits ← image 4#32
  if bits ≠ 1#8 then return .not32Bits
  let endianess ← image 5#32
  if endianess ≠ 1#8 then return .notLittleEndian
  let instructionSet ← read16 image 18#32
  if instructionSet ≠ 3#32 then return .notX86
  return .success

/-- A field of `phtab[i]`, by its distance from the start of the header. -/
def phField (image : Image) (phtab : Word) (i : Nat) (field : Word) : Option Word :=
  read32 image (phtab + BitVec.ofNat 32 (32 * i) + field)

structure Bounds where
  minaddr : Word
  maxaddr : Word
  lastSegmentSize : Word

/-- The first and last loadable segment: the headers `i, i+1, ...`, `n` of them. -/
def findBounds (image : Image) (phtab : Word) : (n i : Nat) → Bounds → Option Bounds
  | 0, _, b => some b
  | n + 1, i, b => do
      let type ← phField image phtab i 0#32
      if type ≠ elfPtLoad then return ← findBounds image phtab n (i + 1) b
      let vaddr ← phField image phtab i 8#32
      let b := if vaddr ≤ b.minaddr then { b with minaddr := vaddr } else b
      if vaddr ≥ b.maxaddr then
        let size ← phField image phtab i 20#32
        findBounds image phtab n (i + 1) { b with maxaddr := vaddr, lastSegmentSize := size }
      else findBounds image phtab n (i + 1) b

/-- What the loader finds out before it asks for memory. -/
structure Plan where
  phtab : Word
  count : Nat
  minaddr : Word
  requiredPages : Word

def Bounds.plan (b : Bounds) (phtab : Word) (count : Nat) : Plan :=
  let minaddr := b.minaddr - b.minaddr % 4096#32
  let progSize := b.maxaddr + b.lastSegmentSize - minaddr
  { phtab := phtab
    count := count
    minaddr := minaddr
    requiredPages := progSize / 4096#32 + if progSize % 4096#32 > 0#32 then 1#32 else 0#32 }

/-- Why the loader stops early. -/
inductive Stop where
  | fault
  | failed (err : ElfErr)
  deriving DecidableEq

def makePlan (image : Image) : Except Stop Plan :=
  match elfValidate image with
  | none => .error .fault
  | some .success =>
      let found := do
        let phtab ← read32 image 28#32
        let count ← read16 image 44#32
        let b ← findBounds image phtab count.toNat 0 ⟨0xffffffff#32, 0#32, 0#32⟩
        return b.plan phtab count.toNat
      match found with
      | none => .error .fault
      | some plan => .ok plan
  | some err => .error (.failed err)

inductive Access where
  | mapped (page : Word)
  | stored (addr : Word)

def Access.addr : Access → Word
  | .mapped page => page
  | .stored addr => addr

structure Load where
  vm : Vm
  log : List Access

namespace Load

/-- `n` pages from page `i` of the program on. -/
def mapPages (l : Load) (pd phys minaddr flags : Word) : (n i : Nat) → Load × Option Stop
  | 0, _ => (l, none)
  | n + 1, i =>
      let page := minaddr + BitVec.ofNat 32 (i * 4096)
      match l.vm.vmmngrMap pd (phys + BitVec.ofNat 32 (i * 4096)) page flags with
      | none => (l, some .fault)
      | some (.oom, vm) => ({ l with vm := vm }, some (.failed .oom))
      | some (.success, vm) => mapPages ⟨vm, .mapped page :: l.log⟩ pd phys minaddr flags n (i + 1)

def setByte (word : Word) (lane : Nat) (value : Byte) : Word :=
  (word &&& ~~~(0xff#32 <<< (8 * lane))) ||| (value.setWidth 32 <<< (8 * lane))

def storeByte (l : Load) (addr : Word) (value : Byte) : Option Load :=
  (l.vm.walk l.vm.cr3 addr).map fun frame =>
    ⟨l.vm.write frame (wordIndex addr) (setByte (l.vm.word frame (wordIndex addr)) (addr.toNat % 4) value),
      .stored addr :: l.log⟩

/-- `dst[i] = bytes i`, `n` times from `i` on. -/
def storeBytes (l : Load) (bytes : Nat → Option Byte) (dst : Word) : (n i : Nat) → Load × Option Stop
  | 0, _ => (l, none)
  | n + 1, i =>
      match (bytes i).bind fun value => l.storeByte (dst + BitVec.ofNat 32 i) value with
      | none => (l, some .fault)
      | some l => storeBytes l bytes dst n (i + 1)

def memcpy (l : Load) (image : Image) (dst src size : Word) : Load × Option Stop :=
  l.storeBytes (fun i => image (src + BitVec.ofNat 32 i)) dst size.toNat 0

def memset (l : Load) (dst : Word) (value : Byte) (size : Word) : Load × Option Stop :=
  l.storeBytes (fun _ => some value) dst size.toNat 0

def copySegment (l : Load) (image : Image) (phtab : Word) (i : Nat) : Load × Option Stop :=
  let header := do
    let vaddr ← phField image phtab i 8#32
    let offset ← phField image phtab i 4#32
    let fileSize ← phField image phtab i 16#32
    return (vaddr, offset, fileSize)
  match header with
  | none => (l, some .fault)
  | some (vaddr, offset, fileSize) =>
      match l.memcpy image vaddr offset fileSize with
      | (l, some stop) => (l, some stop)
      | (l, none) =>
          match phField image phtab i 20#32 with
          | none => (l, some .fault)
          | some memSize =>
              if memSize > fileSize then l.memset (vaddr + fileSize) 0#8 (memSize - fileSize) else (l, none)

def copySegments (l : Load) (image : Image) (phtab : Word) : (n i : Nat) → Load × Option Stop
  | 0, _ => (l, none)
  | n + 1, i =>
      match phField image phtab i 0#32 with
      | none => (l, some .fault)
      | some type =>
          if type ≠ elfPtLoad then copySegments l image phtab n (i + 1)
          else match l.copySegment image phtab i with
            | (l, some stop) => (l, some stop)
            | (l, none) => copySegments l image phtab n (i + 1)

def switch (l : Load) (pd : Word) : Load := { l with vm := l.vm.vmmngrSwitchPageDirectory pd }

/-- The segments are written with the new directory active, and then the old one is active again. -/
def fill (l : Load) (image : Image) (plan : Plan) (pd : Word) : Load × Except Stop Word :=
  match (l.switch pd).copySegments image plan.phtab plan.count 0 with
  | (l, some stop) => (l, .error stop)
  | (filled, none) =>
      match read32 image 24#32 with
      | none => (filled, .error .fault)
      | some entry => (filled.switch l.vm.cr3, .ok entry)

def mapFlags (pd kernelPageDirectory : Word) : Word :=
  if pd ≠ kernelPageDirectory then entryWritable ||| 4#32 else entryWritable

def run (l : Load) (image : Image) (plan : Plan) (pd kernelPageDirectory : Word) : Load × Except Stop Word :=
  let (phys, pmm) := l.vm.pmm.allocMultiBlock plan.requiredPages
  let l := { l with vm := { l.vm with pmm := pmm } }
  if phys = 0#32 then (l, .error (.failed .oom))
  else match l.mapPages pd phys plan.minaddr (mapFlags pd kernelPageDirectory) plan.requiredPages.toNat 0 with
    | (l, some stop) => (l, .error stop)
    | (l, none) => l.fill image plan pd

end Load

/-- `elf_load`, from the result of finding the file and reading it into the buffer. -/
def elfLoad (vm : Vm) (file : Except ElfErr Image) (pd kernelPageDirectory : Word) : Load × Except Stop Word :=
  match file with
  | .error err => (⟨vm, []⟩, .error (.failed err))
  | .ok image =>
      match makePlan image with
      | .error stop => (⟨vm, []⟩, .error stop)
      | .ok plan => Load.run ⟨vm, []⟩ image plan pd kernelPageDirectory

end Kerosene.Elf
