import Kerosene.Mem.InactiveCalls
import Kerosene.Mem.KernelHalf

/-!
# Several page directories in one memory

Calls on any of the directories, active or not, keep each of them recursive and keep all tables
apart from the directories. All directories have the table of the temporary slots in common.
-/

namespace Kerosene.Mem.Vm
open Spaces

structure Housed (m : Vm) (dirs : List Word) (slots : Word) : Prop where
  active : m.cr3 ∈ dirs
  nonzero : ∀ d ∈ dirs, d ≠ 0#32
  own : ∀ d ∈ dirs, m.Recursive d
  slot : ∀ d ∈ dirs, isPresent (m.word d 768) = true ∧ frameOf (m.word d 768) = slots
  apart : ∀ d ∈ dirs, ∀ k < 1023, isPresent (m.word d k) = true → frameOf (m.word d k) ∉ dirs
  alone : ∀ d ∈ dirs, ∀ k < 1023, k ≠ 768 → isPresent (m.word d k) = true → frameOf (m.word d k) ≠ slots
  pmm : m.pmm.Sound
  dirsUsed : ∀ d ∈ dirs, m.pmm.testBit (blockOf d) = true
  tablesUsed : ∀ d ∈ dirs, ∀ k < 1023, isPresent (m.word d k) = true →
    m.pmm.testBit (blockOf (frameOf (m.word d k))) = true

variable {m : Vm} {dirs : List Word} {slots pd virt : Word}

theorem Housed.ready (housed : m.Housed dirs slots) : m.Ready :=
  ⟨housed.own _ housed.active, (housed.slot _ housed.active).1, fun k below present same => by
    have apart := housed.apart _ housed.active k below present
    rw [same] at apart
    exact apart housed.active⟩

theorem Housed.kernelTable (housed : m.Housed dirs slots) : m.kernelTable = slots :=
  (housed.slot _ housed.active).2

theorem Housed.slots_notMem (housed : m.Housed dirs slots) : slots ∉ dirs := by
  have apart := housed.apart _ housed.active 768 (by decide) (housed.slot _ housed.active).1
  rwa [(housed.slot _ housed.active).2] at apart

theorem Housed.foreign (housed : m.Housed dirs slots) (member : pd ∈ dirs) (inactive : pd ≠ m.cr3) : m.Foreign pd := by
  refine ⟨housed.ready, ?_, housed.nonzero pd member, inactive, ?_⟩
  · rw [← (housed.own pd member).frame]
    exact frameOf_aligned _
  · rw [housed.kernelTable]
    rintro rfl
    exact housed.slots_notMem member

theorem Housed.congr (housed : m.Housed dirs slots) {m' : Vm} (active : m'.cr3 ∈ dirs) (pmm : m'.pmm = m.pmm)
    (same : ∀ d ∈ dirs, m'.word d = m.word d) : m'.Housed dirs slots where
  active := active
  nonzero := housed.nonzero
  own d member := ⟨by rw [same d member, (housed.own d member).present],
    by rw [same d member, (housed.own d member).frame]⟩
  slot d member := by rw [same d member]; exact housed.slot d member
  apart d member := by rw [same d member]; exact housed.apart d member
  alone d member := by rw [same d member]; exact housed.alone d member
  pmm := by rw [pmm]; exact housed.pmm
  dirsUsed := by rw [pmm]; exact housed.dirsUsed
  tablesUsed d member := by rw [same d member, pmm]; exact housed.tablesUsed d member

theorem Housed.grow (housed : m.Housed dirs slots) {pmm : Pmm} (sound : pmm.Sound)
    (kept : ∀ b, m.pmm.testBit b = true → pmm.testBit b = true) : (m.withPmm pmm).Housed dirs slots where
  active := housed.active
  nonzero := housed.nonzero
  own d member := ⟨(housed.own d member).present, (housed.own d member).frame⟩
  slot := housed.slot
  apart := housed.apart
  alone := housed.alone
  pmm := sound
  dirsUsed d member := kept _ (housed.dirsUsed d member)
  tablesUsed d member k hk present := kept _ (housed.tablesUsed d member k hk present)

theorem Housed.switch (housed : m.Housed dirs slots) (member : pd ∈ dirs) :
    (m.vmmngrSwitchPageDirectory pd).Housed dirs slots :=
  housed.congr member rfl fun _ _ => rfl

theorem Housed.setEntry (housed : m.Housed dirs slots) {m' : Vm} {idx : Nat} {entry : Word} (root : m'.cr3 = m.cr3)
    (below : idx < 1023) (notSlot : idx ≠ 768)
    (words : ∀ d ∈ dirs, ∀ k, m'.word d k = if d = pd ∧ k = idx then entry else m.word d k)
    (apart : frameOf entry ∉ dirs) (alone : frameOf entry ≠ slots) (pmm : m'.pmm.Sound)
    (kept : ∀ b, m.pmm.testBit b = true → m'.pmm.testBit b = true)
    (used : m'.pmm.testBit (blockOf (frameOf entry)) = true) : m'.Housed dirs slots where
  active := by rw [root]; exact housed.active
  nonzero := housed.nonzero
  own d member := by
    have last : m'.word d 1023 = m.word d 1023 := by
      rw [words d member, if_neg (by omega)]
    exact ⟨by rw [last, (housed.own d member).present], by rw [last, (housed.own d member).frame]⟩
  slot d member := by
    rw [words d member, if_neg (by omega)]
    exact housed.slot d member
  apart d member k hk := by
    rw [words d member]
    split_ifs
    · exact fun _ => apart
    · exact housed.apart d member k hk
  alone d member k hk other := by
    rw [words d member]
    split_ifs
    · exact fun _ => alone
    · exact housed.alone d member k hk other
  pmm := pmm
  dirsUsed d member := kept _ (housed.dirsUsed d member)
  tablesUsed d member k hk := by
    rw [words d member]
    split_ifs
    · exact fun _ => used
    · exact fun h => kept _ (housed.tablesUsed d member k hk h)

/-! ## New frames -/

theorem Housed.alloc_notMem (housed : m.Housed dirs slots) (found : m.pmm.allocBlock.1 ≠ 0#32) :
    m.pmm.allocBlock.1 ∉ dirs := fun member => allocBlock_ne housed.pmm found (housed.dirsUsed _ member) rfl

theorem Housed.alloc_notSlots (housed : m.Housed dirs slots) (found : m.pmm.allocBlock.1 ≠ 0#32) :
    m.pmm.allocBlock.1 ≠ slots := by
  rw [← (housed.slot _ housed.active).2]
  exact allocBlock_ne housed.pmm found
    (housed.tablesUsed _ housed.active 768 (by decide) (housed.slot _ housed.active).1)

theorem Housed.index_ne (housed : m.Housed dirs slots) (member : pd ∈ dirs)
    (absent : isPresent (m.word pd (pageDirectoryIndex virt)) = false) : pageDirectoryIndex virt ≠ 768 := by
  intro same
  rw [same, (housed.slot pd member).1] at absent
  cases absent

theorem Housed.newEntry (housed : m.Housed dirs slots) (member : pd ∈ dirs) (found : m.pmm.allocBlock.1 ≠ 0#32)
    (below : pageDirectoryIndex virt < 1023) (absent : isPresent (m.word pd (pageDirectoryIndex virt)) = false) {m' : Vm}
    {f : Word} (root : m'.cr3 = m.cr3) (pmm : m'.pmm = m.pmm.allocBlock.2)
    (words : ∀ d ∈ dirs, ∀ k, m'.word d k = if d = pd ∧ k = pageDirectoryIndex virt then
      entryWith (m.word pd (pageDirectoryIndex virt)) (f ||| entryPresent) m.pmm.allocBlock.1 else m.word d k) :
    m'.Housed dirs slots := by
  have frame := frameOf_entryWith (m.word pd (pageDirectoryIndex virt)) (f ||| entryPresent)
    (allocBlock_aligned housed.pmm)
  obtain ⟨used, kept⟩ := allocBlock_used housed.pmm found
  refine housed.setEntry root below (housed.index_ne member absent) words ?_ ?_ ?_ ?_ ?_
  · rw [frame]
    exact housed.alloc_notMem found
  · rw [frame]
    exact housed.alloc_notSlots found
  · rw [pmm]
    exact (Pmm.allocBlock_spec housed.pmm).sound
  · rw [pmm]
    exact kept
  · rw [pmm, frame]
    exact used

/-! ## Calls on an inactive directory -/

theorem Housed.reachable (housed : m.Housed dirs slots) (member : pd ∈ dirs) (ordinary : Ordinary virt)
    (present : isPresent (m.word pd (pageDirectoryIndex virt)) = true) : m.Reachable pd virt := by
  have notMem : m.tableIn pd virt ∉ dirs := housed.apart pd member _ ordinary.index present
  refine ⟨present, fun same => notMem (same ▸ housed.active), ?_⟩
  rintro ⟨isSlots, slot⟩
  have index : pageDirectoryIndex virt = 768 := by
    by_contra other
    exact housed.alone pd member _ ordinary.index other present (isSlots.trans housed.kernelTable)
  rcases slot with low | high
  · exact ordinary.notTempTable ((page_eq_iff _ _).mpr ⟨index, low⟩)
  · exact ordinary.notTempPd ((page_eq_iff _ _).mpr ⟨index, high⟩)

theorem Housed.writeTable (housed : m.Housed dirs slots) (member : pd ∈ dirs) (below : pageDirectoryIndex virt < 1023)
    (present : isPresent (m.word pd (pageDirectoryIndex virt)) = true) (idx : Nat) (entry : Word) :
    (m.write (m.tableIn pd virt) idx entry).Housed dirs slots := by
  refine housed.congr housed.active rfl fun d inside => word_write_frame ?_ _ _ _
  rintro rfl
  exact housed.apart pd member _ below present inside

theorem Housed.writeSlots (housed : m.Housed dirs slots) (idx : Nat) (entry : Word) :
    (m.write m.kernelTable idx entry).Housed dirs slots := by
  refine housed.congr housed.active rfl fun d inside => word_write_frame ?_ _ _ _
  rw [housed.kernelTable]
  rintro rfl
  exact housed.slots_notMem inside

theorem Housed.shut (housed : m.Housed dirs slots) {m' : Vm} (kept : m'.Housed dirs slots) :
    (m'.shut m.kernelTable).Housed dirs slots := by
  refine kept.congr kept.active rfl fun d inside => word_shut_frame ?_ _
  rw [housed.kernelTable]
  rintro rfl
  exact housed.slots_notMem inside

theorem Housed.word_withTableIn {p : Word} (housed : m.Housed dirs slots) (found : m.pmm.allocBlock.1 ≠ 0#32)
    (virt phys flags : Word) {d : Word} (inside : d ∈ dirs) (k : Nat) :
    ((m.withPmm m.pmm.allocBlock.2).withTableIn p virt m.pmm.allocBlock.1 phys flags).word d k =
      if d = p ∧ k = pageDirectoryIndex virt then
        entryWith (m.word p (pageDirectoryIndex virt)) (flags ||| entryPresent) m.pmm.allocBlock.1
      else m.word d k := by
  have notSlots : d ≠ (m.withPmm m.pmm.allocBlock.2).kernelTable := by
    rw [kernelTable_withPmm, housed.kernelTable]
    rintro rfl
    exact housed.slots_notMem inside
  have notNew : d ≠ m.pmm.allocBlock.1 := by
    rintro rfl
    exact housed.alloc_notMem found inside
  rw [withTableIn, word_shut_frame notSlots, word_setWords, if_neg notNew, word_write]
  rfl

theorem Housed.map_absent_eq {d : Word} {v : Word} (housed : m.Housed dirs slots) (member : d ∈ dirs) (inactive : d ≠ m.cr3)
    (absent : isPresent (m.word d (pageDirectoryIndex v)) = false) (found : m.pmm.allocBlock.1 ≠ 0#32)
    (phys flags : Word) :
    m.vmmngrMap d phys v flags =
      some (.success, (m.withPmm m.pmm.allocBlock.2).withTableIn d v m.pmm.allocBlock.1 phys flags) := by
  have notMem := housed.alloc_notMem found
  refine (housed.foreign member inactive).map_absent absent (Prod.eta _).symm found (allocBlock_aligned housed.pmm)
    (fun same => notMem (same ▸ housed.active)) ?_ (fun same => notMem (same ▸ member)) phys flags
  rw [housed.kernelTable]
  exact housed.alloc_notSlots found

theorem Housed.map_inactive (housed : m.Housed dirs slots) (member : pd ∈ dirs) (inactive : pd ≠ m.cr3)
    (ordinary : Ordinary virt) (phys flags : Word) :
    ∃ err m', m.vmmngrMap pd phys virt flags = some (err, m') ∧ m'.Housed dirs slots := by
  have foreign := housed.foreign member inactive
  cases present : isPresent (m.word pd (pageDirectoryIndex virt)) with
  | true =>
      refine ⟨_, _, foreign.map_present (housed.reachable member ordinary present) phys flags, ?_⟩
      exact housed.shut (housed.writeTable member ordinary.index present _ _)
  | false =>
      have spec := Pmm.allocBlock_spec housed.pmm
      by_cases refused : m.pmm.allocBlock.1 = 0#32
      · have full : m.pmm.allocBlock = (0#32, m.pmm) := Prod.ext refused (spec.keeps refused)
        exact ⟨_, _, foreign.map_oom present full phys flags, housed.writeSlots _ _⟩
      · refine ⟨_, _, housed.map_absent_eq member inactive present refused phys flags, ?_⟩
        exact housed.newEntry member refused ordinary.index present rfl rfl fun d inside k =>
          housed.word_withTableIn refused virt phys flags inside k

theorem Housed.unmap_inactive (housed : m.Housed dirs slots) (member : pd ∈ dirs) (inactive : pd ≠ m.cr3)
    (ordinary : Ordinary virt) : ∃ m', m.vmmngrUnmap pd virt = some m' ∧ m'.Housed dirs slots := by
  have foreign := housed.foreign member inactive
  cases present : isPresent (m.word pd (pageDirectoryIndex virt)) with
  | true =>
      refine ⟨_, foreign.unmap_present (housed.reachable member ordinary present), housed.shut ?_⟩
      split_ifs
      · exact housed.writeTable member ordinary.index present _ _
      · exact housed
  | false => exact ⟨_, foreign.unmap_absent present, housed.writeSlots _ _⟩

/-! ## Calls on the active directory -/

theorem Housed.map_active (housed : m.Housed dirs slots) (ordinary : Ordinary virt) (phys flags : Word) :
    ∃ err m', m.vmmngrMap 0#32 phys virt flags = some (err, m') ∧ m'.Housed dirs slots := by
  have ready := housed.ready
  cases present : isPresent (m.pdeOf virt) with
  | true =>
      refine ⟨_, _, ready.map_present ordinary.index present phys flags, ?_⟩
      exact housed.writeTable housed.active ordinary.index present _ _
  | false =>
      have spec := Pmm.allocBlock_spec housed.pmm
      by_cases refused : m.pmm.allocBlock.1 = 0#32
      · have full : m.pmm.allocBlock = (0#32, m.pmm) := Prod.ext refused (spec.keeps refused)
        exact ⟨_, _, ready.map_oom present full phys flags, housed⟩
      · have notMem := housed.alloc_notMem refused
        refine ⟨_, _, ready.map_absent ordinary.index present (Prod.eta _).symm refused (allocBlock_aligned housed.pmm)
          (fun same => notMem (same ▸ housed.active)) (by rw [housed.kernelTable]; exact housed.alloc_notSlots refused)
          phys flags, ?_⟩
        refine housed.newEntry housed.active refused ordinary.index present rfl rfl (f := flags) fun d inside k => ?_
        have notSlots : d ≠ m.kernelTable := by
          rw [housed.kernelTable]
          rintro rfl
          exact housed.slots_notMem inside
        have notNew : d ≠ m.pmm.allocBlock.1 := by
          rintro rfl
          exact notMem inside
        rw [word_withTable, if_neg (fun h => notSlots h.1), if_neg notNew]
        rfl

theorem Housed.unmap_active (housed : m.Housed dirs slots) (ordinary : Ordinary virt) :
    ∃ m', m.vmmngrUnmap 0#32 virt = some m' ∧ m'.Housed dirs slots := by
  refine ⟨_, housed.ready.unmap ordinary.index, ?_⟩
  split_ifs with mapped
  · rw [Bool.and_eq_true] at mapped
    exact housed.writeTable housed.active ordinary.index mapped.1 _ _
  · exact housed

/-! ## A new directory -/

/-- Memory after `vmmngr_alloc_page_directory`. -/
def fresh (m : Vm) (kernelPd : Word) : Vm :=
  (m.withPmm m.pmm.allocBlock.2).withDirectory kernelPd m.pmm.allocBlock.1

theorem Housed.allocPageDirectory (housed : m.Housed dirs slots) {kernelPd : Word} (kernel : kernelPd ∈ dirs)
    (found : m.pmm.allocBlock.1 ≠ 0#32) :
    m.vmmngrAllocPageDirectory kernelPd = some (m.pmm.allocBlock.1, m.fresh kernelPd) := by
  have notMem := housed.alloc_notMem found
  refine housed.ready.allocPageDirectory (Prod.eta _).symm found (allocBlock_aligned housed.pmm)
    (fun same => notMem (same ▸ housed.active)) ?_ (fun same => notMem (same ▸ kernel)) ?_
  · rw [housed.kernelTable]
    exact housed.alloc_notSlots found
  · rw [housed.kernelTable]
    rintro rfl
    exact housed.slots_notMem kernel

section Fresh
variable {kernelPd : Word} (housed : m.Housed dirs slots) (kernel : kernelPd ∈ dirs) (found : m.pmm.allocBlock.1 ≠ 0#32)
include housed found

theorem Housed.word_fresh_old {k : Word} {d : Word} (member : d ∈ dirs) : (m.fresh k).word d = m.word d := by
  have notSlots : d ≠ (m.withPmm m.pmm.allocBlock.2).kernelTable := by
    rw [kernelTable_withPmm, housed.kernelTable]
    rintro rfl
    exact housed.slots_notMem member
  have notNew : d ≠ m.pmm.allocBlock.1 := fun same => housed.alloc_notMem found (same ▸ member)
  rw [fresh, withDirectory, word_write_frame notSlots, word_setWords, if_neg notNew]
  rfl

theorem Housed.word_fresh_new (k : Nat) : (m.fresh kernelPd).word m.pmm.allocBlock.1 k =
    newDirectory (m.word kernelPd) (m.word m.pmm.allocBlock.1) m.pmm.allocBlock.1 k := by
  have notSlots : m.pmm.allocBlock.1 ≠ (m.withPmm m.pmm.allocBlock.2).kernelTable := by
    rw [kernelTable_withPmm, housed.kernelTable]
    exact housed.alloc_notSlots found
  rw [fresh, withDirectory, word_write_frame notSlots, word_setWords, if_pos rfl]
  rfl

theorem Housed.word_fresh_entry {p : Word} {k : Nat} (below : k < 1023) :
    (m.fresh p).word m.pmm.allocBlock.1 k = m.word p k := by
  rw [housed.word_fresh_new found, newDirectory, if_neg (by omega), if_pos (by omega)]

include kernel in
theorem Housed.fresh : (m.fresh kernelPd).Housed (m.pmm.allocBlock.1 :: dirs) slots := by
  obtain ⟨used, kept⟩ := allocBlock_used housed.pmm found
  have old := fun d member => housed.word_fresh_old found (k := kernelPd) (d := d) member
  have new := fun k below => housed.word_fresh_entry found (p := kernelPd) (k := k) below
  have tables : ∀ d ∈ dirs, ∀ k < 1023, isPresent (m.word d k) = true →
      frameOf (m.word d k) ∉ m.pmm.allocBlock.1 :: dirs := by
    intro d member k hk present listed
    rcases List.mem_cons.mp listed with isNew | isOld
    · exact allocBlock_ne housed.pmm found (housed.tablesUsed d member k hk present) isNew.symm
    · exact housed.apart d member k hk present isOld
  refine ⟨List.mem_cons_of_mem _ housed.active, ?_, ?_, ?_, ?_, ?_, (Pmm.allocBlock_spec housed.pmm).sound, ?_, ?_⟩
  all_goals
    intro d listed
    rcases List.mem_cons.mp listed with rfl | member
  · exact found
  · exact housed.nonzero d member
  · have last : (m.fresh kernelPd).word m.pmm.allocBlock.1 1023 =
        entryWith (m.word kernelPd 1023) (entryPresent ||| entryWritable) m.pmm.allocBlock.1 := by
      rw [housed.word_fresh_new found, newDirectory, if_pos rfl]
    refine ⟨?_, ?_⟩
    · rw [last]
      exact isPresent_entryWith _ _ _ (by decide)
    · rw [last]
      exact frameOf_entryWith _ _ (allocBlock_aligned housed.pmm)
  · exact ⟨by rw [old d member, (housed.own d member).present], by rw [old d member, (housed.own d member).frame]⟩
  · rw [new 768 (by decide)]
    exact housed.slot _ kernel
  · rw [old d member]
    exact housed.slot d member
  · intro k hk
    rw [new k hk]
    exact tables _ kernel k hk
  · rw [old d member]
    exact tables d member
  · intro k hk
    rw [new k hk]
    exact housed.alone _ kernel k hk
  · rw [old d member]
    exact housed.alone d member
  · exact used
  · exact kept _ (housed.dirsUsed d member)
  · intro k hk
    rw [new k hk]
    exact fun present => kept _ (housed.tablesUsed _ kernel k hk present)
  · intro k hk
    rw [old d member]
    exact fun present => kept _ (housed.tablesUsed d member k hk present)

end Fresh
end Kerosene.Mem.Vm
