import Kerosene.Lib.Words
import Kerosene.Mem.Pmm

/-!
# The kernel heap

`heap_new`, `heap_expand`, `heap_contract`, `heap_alloc` and `heap_free` of heap.c. An address is a
natural number below `2 ^ 32`. The heap's memory is what lies between its first header and `heap->end`;
an access outside, or where no page is mapped, is a fault, `none`. What `vmmngr_map` answers is not looked
at, so that a page can stay unmapped. The lock and the flags of the mappings are left out.
-/

namespace Kerosene.Mem
open Lib

-- `uint32_t` arithmetic
def u32 (n : Nat) : Nat := n % 2 ^ 32

def u32Sub (a b : Nat) : Nat := (((a : Int) - b) % 2 ^ 32).toNat

def minRegionSize : Nat := 4

-- `sizeof(heap_t)`, packed, and `sizeof(heap_header_t)`
def heapSize : Nat := 14

def headerSize : Nat := 12

def heapFreeMagic : Nat := 0x7ea9f2ee

def heapUsedMagic : Nat := 0x7ea942ed

structure Heap where
  heap : Nat
  end_ : Nat
  maxAddr : Nat
  minSize : Nat
  memory : Bytes
  -- in front of `heap->end`, the addresses without a page
  unmapped : Nat → Bool

/-- The frames of new pages: what they hold, by address, and which of the calls of `vmmngr_map` succeed. -/
structure Frames where
  memory : Bytes
  mapped : Nat → Bool

/-- What `pmmngr_alloc_multi_block` answers. -/
abbrev Pages := Option Frames

/-- Whether a page is mapped at `a` when `count` pages are mapped from `start` on. -/
def Frames.covers (frames : Frames) (start count a : Nat) : Bool :=
  decide (start / pageSize ≤ a / pageSize) && decide (a / pageSize < start / pageSize + count) &&
    frames.mapped (a / pageSize - start / pageSize)

namespace Heap

def firstHeader (h : Heap) : Nat := h.heap + heapSize

def Accessible (h : Heap) (a : Nat) : Prop := h.firstHeader ≤ a ∧ a + 4 ≤ h.end_ ∧ ∀ i < 4, h.unmapped (a + i) = false

instance (h : Heap) (a : Nat) : Decidable (h.Accessible a) :=
  inferInstanceAs (Decidable (h.firstHeader ≤ a ∧ a + 4 ≤ h.end_ ∧ ∀ i < 4, h.unmapped (a + i) = false))

def load (h : Heap) (a : Nat) : Option Nat :=
  if h.Accessible a then some (h.memory.word a) else none

def store (h : Heap) (a v : Nat) : Option Heap :=
  if h.Accessible a then some { h with memory := h.memory.setWord a v } else none

/-! ## Headers -/

def magic (h : Heap) (header : Nat) : Option Nat := h.load header

def size (h : Heap) (header : Nat) : Option Nat := h.load (header + 4)

def prev (h : Heap) (header : Nat) : Option Nat := h.load (header + 8)

def setMagic (h : Heap) (header v : Nat) : Option Heap := h.store header v

def setSize (h : Heap) (header v : Nat) : Option Heap := h.store (header + 4) v

def setPrev (h : Heap) (header v : Nat) : Option Heap := h.store (header + 8) v

-- a whole header, in the order of the source
def setHeader (h : Heap) (header magic size prev : Nat) : Option Heap := do
  let h ← h.setMagic header magic
  let h ← h.setSize header size
  h.setPrev header prev

def nextHeader (h : Heap) (header : Nat) : Option Nat := do
  return u32 (header + headerSize + (← h.size header))

-- `n = HEAP_NEXT_HEADER(header); if(n < heap->end) n->prev = header;`
def linkNext (h : Heap) (header : Nat) : Option Heap := do
  let n ← h.nextHeader header
  if n < h.end_ then h.setPrev n header else return h

/-! ## Growing and shrinking -/

/-- `heap_new`, with the frames that it gets. -/
def heapNew (start size maxSize : Nat) (frames : Frames) : Option Heap :=
  let h : Heap := ⟨start, u32 (start + size), u32 (start + maxSize), size, frames.memory,
    fun a => !frames.covers start ((size + (pageSize - 1)) / pageSize) a⟩
  h.setHeader h.firstHeader heapFreeMagic (u32Sub (u32Sub h.end_ h.firstHeader) headerSize) 0

-- no block is handed out for no pages
def allocPages (pageCount : Nat) (pages : Pages) : Pages := if pageCount = 0 then none else pages

/-- Whether it failed, and the heap. -/
def heapExpand (h : Heap) (pageCount lastHeader : Nat) (pages : Pages) : Option (Bool × Heap) := do
  if u32 (h.end_ + pageCount * pageSize) > h.maxAddr then return (true, h)
  match allocPages pageCount pages with
  | none => return (true, h)
  | some frames =>
      -- from the page of `heap->end` on; the source moves `heap->end` last
      let grown : Heap := { h with
        end_ := u32 (h.end_ + pageCount * pageSize)
        memory := fun a => if frames.covers h.end_ pageCount a then frames.memory a else h.memory a
        unmapped := fun a => !frames.covers h.end_ pageCount a && (decide (h.end_ ≤ a) || h.unmapped a) }
      if (← grown.magic lastHeader) = heapFreeMagic then
        let size ← grown.size lastHeader
        return (false, ← grown.setSize lastHeader (u32 (size + pageCount * pageSize)))
      else
        return (false, ← grown.setHeader h.end_ heapFreeMagic (u32Sub (u32 (pageCount * pageSize)) headerSize) lastHeader)

-- the heap, and the pages that `vmmngr_unmap` takes away
def contractLoop (h : Heap) : (pageCount : Nat) → (unmapped : List Nat) → Heap × List Nat
  | 0, unmapped => (h, unmapped)
  | pageCount + 1, unmapped =>
      let end_ := u32Sub h.end_ pageSize
      let page := end_ - end_ % pageSize
      contractLoop { h with end_ := end_, unmapped := fun a => h.unmapped a || (decide (page ≤ a) && decide (a < end_)) }
        pageCount (unmapped ++ [page])

def contractCount (h : Heap) (pageCount : Nat) : Nat :=
  let remainSize := u32Sub (u32Sub h.end_ (u32 (pageCount * pageSize))) h.heap
  -- negative as an `int`
  if remainSize ≥ 2 ^ 31 ∨ remainSize < h.minSize then u32Sub (u32Sub h.end_ h.heap) h.minSize / pageSize else pageCount

def heapContract (h : Heap) (pageCount lastHeader : Nat) : Option (Heap × List Nat) := do
  let pageCount := h.contractCount pageCount
  let size ← h.size lastHeader
  let h ← h.setSize lastHeader (u32Sub size (u32 (pageCount * pageSize)))
  return h.contractLoop pageCount []

/-! ## `heap_alloc` -/

-- how far the next page boundary is
def alignOffset (addr : Nat) : Nat := if addr % pageSize > 0 then pageSize - addr % pageSize else 0

-- whether the search stops at a free region
def fits (h : Heap) (header regSize : Nat) (pageAlign : Bool) : Option Bool := do
  let addr := u32 (header + headerSize)
  if pageAlign then
    let offset := alignOffset addr
    if 0 < offset ∧ offset < headerSize + minRegionSize ∧ (← h.prev header) = 0 then return false
    return decide ((← h.size header) ≥ u32 (regSize + offset))
  else return decide ((← h.size header) ≥ regSize)

/-- The header where the search stops, and the one before it. -/
def findLoop (h : Heap) (regSize : Nat) (pageAlign : Bool) :
    (fuel : Nat) → (header : Nat) → (finalHeader : Option Nat) → Option (Nat × Option Nat)
  | 0, _, _ => none
  | fuel + 1, header, finalHeader => do
      if header < h.end_ then
        if (← h.magic header) = heapFreeMagic then
          if ← h.fits header regSize pageAlign then return (header, finalHeader)
        h.findLoop regSize pageAlign fuel (← h.nextHeader header) (some header)
      else return (header, finalHeader)

-- `needed_size` and `potential_addr`
def neededFrom (h : Heap) (size finalHeader : Nat) : Option (Nat × Nat) := do
  if (← h.magic finalHeader) = heapUsedMagic then return (u32 (size + headerSize), u32 (h.end_ + headerSize))
  else return (u32Sub size (← h.size finalHeader), u32 (finalHeader + headerSize))

def neededSize (h : Heap) (size finalHeader : Nat) (pageAlign : Bool) : Option Nat := do
  let (needed, potentialAddr) ← h.neededFrom size finalHeader
  let needed := if pageAlign then u32 (needed + alignOffset potentialAddr) else needed
  return if needed % pageSize > 0 then u32 (needed + (pageSize - needed % pageSize)) else needed

-- the header that is split, or that the heap could not grow
def findHeader (h : Heap) (size : Nat) (pageAlign : Bool) (pages : Pages) : Option (Option Nat × Heap) := do
  let (header, finalHeader) ← h.findLoop (u32 (size + headerSize)) pageAlign (2 ^ 32) h.firstHeader none
  if header < h.end_ then return (some header, h)
  let finalHeader ← finalHeader
  let needed ← h.neededSize size finalHeader pageAlign
  let (err, h) ← h.heapExpand (needed / pageSize) finalHeader pages
  if err then return (none, h)
  -- also when the new region is another one
  return (some finalHeader, h)

-- the rest of the region becomes a free one
def splitRegion (h : Heap) (header tempSize : Nat) : Option Heap := do
  let spareBytes := u32Sub (u32Sub (← h.size header) tempSize) headerSize
  if spareBytes ≥ minRegionSize then
    let newh := u32 (header + headerSize + tempSize)
    let h ← h.setHeader newh heapFreeMagic spareBytes header
    let h ← h.linkNext newh
    h.setSize header tempSize
  else return h

-- the part of the region in front of the page boundary becomes free, or goes to the region before it
def moveHeader (h : Heap) (header pageAlignedAddr size : Nat) : Option (Nat × Heap) := do
  let newh := u32Sub pageAlignedAddr headerSize
  let diff := u32Sub newh header
  if diff > 0 then
    let h ← h.setMagic newh heapUsedMagic
    let h ← h.setSize newh size
    let h ← h.setMagic header heapFreeMagic
    let h ← h.linkNext newh
    if diff ≥ headerSize + minRegionSize then
      let h ← h.setSize header (u32Sub diff headerSize)
      return (newh, ← h.setPrev newh header)
    else
      let prevh ← h.prev header
      let h ← h.setSize prevh (u32 ((← h.size prevh) + diff))
      return (newh, ← h.setPrev newh prevh)
  else return (header, h)

/-- The address of the block, or null. -/
def heapAlloc (h : Heap) (size : Nat) (pageAlign : Bool) (pages : Pages) : Option (Option Nat × Heap) := do
  let (found, h) ← h.findHeader size pageAlign pages
  match found with
  | none => return (none, h)
  | some header =>
      let addr := u32 (header + headerSize)
      let offset := if pageAlign then alignOffset addr else 0
      let h ← h.splitRegion header (u32 (size + offset))
      let h ← h.setMagic header heapUsedMagic
      let (header, h) ← if pageAlign then h.moveHeader header (u32 (addr + offset)) size else pure (header, h)
      return (some (u32 (header + headerSize)), h)

/-! ## `heap_free` -/

-- take the next region in, if it is free
def mergeNext (h : Heap) (header : Nat) : Option Heap := do
  let nexth ← h.nextHeader header
  if nexth < h.end_ then
    if (← h.magic nexth) = heapFreeMagic then
      let h ← h.setSize header (u32 ((← h.size header) + (← h.size nexth) + headerSize))
      h.linkNext header
    else return h
  else return h

-- the region that takes this one in
def mergePrev (h : Heap) (prevh header : Nat) : Option (Nat × Heap) := do
  if prevh ≠ 0 then
    if (← h.magic prevh) = heapFreeMagic then
      let h ← h.setSize prevh (u32 ((← h.size prevh) + (← h.size header) + headerSize))
      return (prevh, ← h.linkNext prevh)
    else return (header, h)
  else return (header, h)

def shrink (h : Heap) (resultRegion : Nat) : Option (Heap × List Nat) := do
  if (← h.nextHeader resultRegion) ≥ h.end_ then
    let totalSize := u32Sub h.end_ h.heap
    let idealSize := u32 (totalSize * 2) / 5 / pageSize
    let contractedFreeSize := u32Sub (← h.size resultRegion) (u32 (idealSize * pageSize))
    if idealSize > 0 ∧ contractedFreeSize ≥ minRegionSize then h.heapContract idealSize resultRegion else return (h, [])
  else return (h, [])

/-- The heap, and the pages that were unmapped. -/
def heapFree (h : Heap) (addr : Nat) : Option (Heap × List Nat) := do
  let header := u32Sub addr headerSize
  if (← h.magic header) ≠ heapUsedMagic then return (h, [])
  let prevh ← h.prev header
  let h ← h.setMagic header heapFreeMagic
  let h ← h.mergeNext header
  let (resultRegion, h) ← h.mergePrev prevh header
  h.shrink resultRegion

end Heap
end Kerosene.Mem
