import Mathlib.Data.Nat.Count
import Mathlib.Logic.Function.Basic
import Mathlib.Tactic.Ring

namespace Kerosene.Mem

abbrev Word := BitVec 32

def pageSize : Nat := 4096

/-- Words of the static `bitmap` array. -/
def bitmapWords : Nat := 24576

/-- The static variables of pmmngr.c. -/
structure Pmm where
  bitmap : Nat → Word
  usedBlock : Word
  totalBlock : Word

namespace Pmm

def withUsed (p : Pmm) (used : Word) : Pmm := { p with usedBlock := used }

def setBit (p : Pmm) (bit : Nat) : Pmm :=
  { p with bitmap := Function.update p.bitmap (bit / 32) (p.bitmap (bit / 32) ||| (1#32 <<< (bit % 32))) }

def unsetBit (p : Pmm) (bit : Nat) : Pmm :=
  { p with bitmap := Function.update p.bitmap (bit / 32) (p.bitmap (bit / 32) &&& ~~~(1#32 <<< (bit % 32))) }

def testBit (p : Pmm) (bit : Nat) : Bool :=
  (p.bitmap (bit / 32) >>> (bit % 32)) &&& 1#32 != 0#32

-- the sum is a `size_t`
def numChunks (p : Pmm) : Nat := (p.totalBlock + 31#32).toNat / 32

-- an unsigned index that is returned as an `int`
def toInt (index : Nat) : Int := (BitVec.ofNat 32 index).toInt

/-- The bits `j, j+1, ...` of chunk `i`, `n` of them: `none` when the loop runs to its end. -/
def findFreeBit (p : Pmm) (i : Nat) : (n j : Nat) → Option Int
  | 0, _ => none
  | n + 1, j =>
      if i * 32 + j ≥ p.totalBlock.toNat then some (-1)
      else if p.bitmap i &&& (1#32 <<< j) = 0#32 then some (toInt (i * 32 + j))
      else findFreeBit p i n (j + 1)

/-- The chunks `i, i+1, ...`, `n` of them. -/
def findFreeChunk (p : Pmm) : (n i : Nat) → Int
  | 0, _ => -1
  | n + 1, i =>
      if p.bitmap i = 0xffffffff#32 then findFreeChunk p n (i + 1)
      else match findFreeBit p i 32 0 with
        | some found => found
        | none => findFreeChunk p n (i + 1)

def findFirstFreeBlock (p : Pmm) : Int := findFreeChunk p p.numChunks 0

/-- The inner loop of `find_first_free`: the least `k ≥ 1` with block `i + k` in use, or `cnt`. -/
def freeRunLength (p : Pmm) (i : Nat) : (n k : Nat) → Nat
  | 0, k => k
  | n + 1, k => if p.testBit (i + k) then k else freeRunLength p i n (k + 1)

/-- The outer loop of `find_first_free` from `i`. The bound on `i` grows with every turn, so
`total_block` turns are enough. -/
def findRun (p : Pmm) (cnt : Nat) : (turns i : Nat) → Int
  | 0, _ => -1
  | turns + 1, i =>
      if i ≤ p.totalBlock.toNat - cnt then
        if p.testBit i then findRun p cnt turns (i + 1)
        else
          let k := freeRunLength p i (cnt - 1) 1
          if k = cnt then toInt i else findRun p cnt turns (i + k + 1)
      else -1

def findFirstFree (p : Pmm) (cnt : Word) : Int :=
  if cnt = 0 then -1
  else if cnt = 1 then p.findFirstFreeBlock
  else if cnt > p.totalBlock then -1
  else findRun p cnt.toNat (p.totalBlock.toNat + 1) 0

/-- The bit loop of `pmmngr_update_usage`. -/
def countBits (p : Pmm) (i : Nat) : (n j : Nat) → Word → Word
  | 0, _, used => used
  | n + 1, j, used =>
      if i * 32 + j ≥ p.totalBlock.toNat then used
      else countBits p i n (j + 1) (if p.bitmap i &&& (1#32 <<< j) ≠ 0#32 then used + 1#32 else used)

-- only the last chunk can hold padding bits
def bitsInThisChunk (p : Pmm) (i : Nat) : Nat :=
  if i = p.numChunks - 1 ∧ p.totalBlock.toNat % 32 ≠ 0 then p.totalBlock.toNat % 32 else 32

def countChunks (p : Pmm) : (n i : Nat) → Word → Word
  | 0, _, used => used
  | n + 1, i, used =>
      if p.bitmap i = 0xffffffff#32 ∧ p.bitsInThisChunk i = 32 then
        countChunks p n (i + 1) (used + 32#32)
      else countChunks p n (i + 1) (countBits p i 32 0 used)

def updateUsage (p : Pmm) : Pmm :=
  p.withUsed (countChunks p p.numChunks 0 0#32)

def unsetFrom (p : Pmm) : (block start : Nat) → Pmm
  | 0, _ => p
  | block + 1, start => unsetFrom (p.unsetBit start) block (start + 1)

def setFrom (p : Pmm) : (block start : Nat) → Pmm
  | 0, _ => p
  | block + 1, start => setFrom (p.setBit start) block (start + 1)

def initRegion (p : Pmm) (base size : Word) : Pmm :=
  (p.unsetFrom (size.toNat / pageSize) (base.toNat / pageSize)).setBit 0

def deinitRegion (p : Pmm) (base size : Word) : Pmm :=
  p.setFrom (size.toNat / pageSize) (base.toNat / pageSize)

/-- `frame * MMNGR_PAGE_SIZE`, an `int` product stored in a `paddr_t`. -/
def frameAddr (frame : Int) : Word := BitVec.ofInt 32 (frame * pageSize)

def allocBlock (p : Pmm) : Word × Pmm :=
  if p.totalBlock = p.usedBlock then (0, p)
  else
    let frame := p.findFirstFreeBlock
    if frame = -1 then (0, p)
    else (frameAddr frame, (p.setBit frame.toNat).withUsed (p.usedBlock + 1#32))

def allocMultiBlock (p : Pmm) (cnt : Word) : Word × Pmm :=
  if p.usedBlock + cnt > p.totalBlock then (0, p)
  else
    let frame := p.findFirstFree cnt
    if frame = -1 then (0, p)
    else (frameAddr frame, (p.setFrom cnt.toNat frame.toNat).withUsed (p.usedBlock + cnt))

theorem allocMultiBlock_zero (p : Pmm) : (p.allocMultiBlock 0).1 = 0 := by
  rw [allocMultiBlock, findFirstFree, if_pos rfl]
  split_ifs <;> rfl

/-- `if(test_bit(b)) { unset_bit(b); used_block--; }` -/
def release (p : Pmm) (b : Nat) : Pmm :=
  if p.testBit b then (p.unsetBit b).withUsed (p.usedBlock - 1#32) else p

def freeBlock (p : Pmm) (addr : Word) : Pmm :=
  let frame := addr.toNat / pageSize
  if frame = 0 then p else p.release frame

/-- The loop of `pmmngr_free_multi_block`, `n` turns from block `b`. -/
def releaseFrom (p : Pmm) : (n b : Nat) → Pmm
  | 0, _ => p
  | n + 1, b => if b ≥ p.totalBlock.toNat then p else releaseFrom (p.release b) n (b + 1)

def freeMultiBlock (p : Pmm) (addr cnt : Word) : Pmm :=
  let frame := addr.toNat / pageSize
  if frame = 0 then p else p.releaseFrom cnt.toNat frame

/-- `pmmngr_init`: every block is in use until a region says otherwise. -/
def init (size : Word) : Pmm where
  bitmap _ := 0xffffffff#32
  usedBlock := BitVec.ofNat 32 (size.toNat / pageSize)
  totalBlock := BitVec.ofNat 32 (size.toNat / pageSize)

end Pmm
end Kerosene.Mem
