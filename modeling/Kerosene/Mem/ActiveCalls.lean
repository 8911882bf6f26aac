import Kerosene.Mem.Windows

/-!
# The calls of vmmngr.c on the active directory

Each call that is given no directory works on the one in `cr3`. The lemmas here say what it leaves
in memory, so that no later proof looks into the windows again.
-/

namespace Kerosene.Mem.Vm
variable {m : Vm}

def withPmm (m : Vm) (pmm : Pmm) : Vm := { m with pmm := pmm }

@[simp] theorem cr3_withPmm (m : Vm) (pmm : Pmm) : (m.withPmm pmm).cr3 = m.cr3 := rfl
@[simp] theorem word_withPmm (m : Vm) (pmm : Pmm) : (m.withPmm pmm).word = m.word := rfl
@[simp] theorem pmm_withPmm (m : Vm) (pmm : Pmm) : (m.withPmm pmm).pmm = pmm := rfl

def pdeOf (m : Vm) (virt : Word) : Word := m.word m.cr3 (pageDirectoryIndex virt)
def tableOf (m : Vm) (virt : Word) : Word := frameOf (m.pdeOf virt)
def pteOf (m : Vm) (virt : Word) : Word := m.word (m.tableOf virt) (pageTableIndex virt)

-- the table that holds the two temporary slots
def kernelTable (m : Vm) : Word := frameOf (m.word m.cr3 768)

@[simp] theorem kernelTable_withPmm (m : Vm) (pmm : Pmm) : (m.withPmm pmm).kernelTable = m.kernelTable := rfl

/-- The active directory is recursive, holds the table of the temporary slots, and is no table of
its own but the last. -/
structure Ready (m : Vm) : Prop where
  own : m.Recursive m.cr3
  kernel : isPresent (m.word m.cr3 768) = true
  apart : ∀ d < 1023, isPresent (m.word m.cr3 d) = true → frameOf (m.word m.cr3 d) ≠ m.cr3

theorem walk_eq (m : Vm) (virt : Word) :
    m.walk m.cr3 virt =
      if isPresent (m.pdeOf virt) && isPresent (m.pteOf virt) then some (frameOf (m.pteOf virt)) else none := by
  simp only [walk, pdeOf, pteOf, tableOf]
  by_cases present : isPresent (m.word m.cr3 (pageDirectoryIndex virt)) = true <;> simp [present]

/-- What `vmmngr_to_physical_addr(NULL, virt)` is meant to return. -/
def translate (m : Vm) (virt : Word) : Word := (m.walk m.cr3 virt).getD 0#32

theorem Ready.shows (ready : m.Ready) {virt : Word} (ordinary : pageDirectoryIndex virt < 1023)
    (present : isPresent (m.pdeOf virt) = true) :
    m.Shows (pageTableAddr (pageDirectoryIndex virt)) (m.tableOf virt) :=
  ready.own.shows (by omega) present (ready.apart _ ordinary present)

theorem Recursive.toPhysicalAddr (own : m.Recursive m.cr3) (virt : Word) :
    m.vmmngrToPhysicalAddr 0#32 virt = some (m.translate virt, m) := by
  have directory := (own.directory (pageDirectoryIndex_lt virt)).load
  rw [translate, walk_eq]
  cases present : isPresent (m.pdeOf virt) with
  | false =>
      rw [pdeOf] at present
      simp [vmmngrToPhysicalAddr, openDirectory, closeDirectory, directory, present]
  | true =>
      have table := (own.window (table_splits (pageDirectoryIndex_lt virt) (pageTableIndex_lt virt)) present).load
      rw [show m.word (frameOf (m.word m.cr3 (pageDirectoryIndex virt))) (pageTableIndex virt) = m.pteOf virt from rfl] at table
      rw [pdeOf] at present
      cases mapped : isPresent (m.pteOf virt) <;>
        simp [vmmngrToPhysicalAddr, openDirectory, closeDirectory, openTable, closeTable, directory,
          present, table, mapped]

theorem Ready.unmap (ready : m.Ready) {virt : Word} (ordinary : pageDirectoryIndex virt < 1023) :
    m.vmmngrUnmap 0#32 virt =
      some (if isPresent (m.pdeOf virt) && isPresent (m.pteOf virt)
        then m.write (m.tableOf virt) (pageTableIndex virt) 0#32 else m) := by
  have directory := (ready.own.directory (pageDirectoryIndex_lt virt)).load
  cases present : isPresent (m.pdeOf virt) with
  | false =>
      rw [pdeOf] at present
      simp [vmmngrUnmap, openDirectory, closeDirectory, directory, present]
  | true =>
      have window := (ready.shows ordinary present).window (pageTableIndex_lt virt)
      have table := window.load
      have cleared := window.store 0#32
      rw [pdeOf] at present
      rw [show m.word (m.tableOf virt) (pageTableIndex virt) = m.pteOf virt from rfl] at table
      cases mapped : isPresent (m.pteOf virt) <;>
        simp [vmmngrUnmap, openDirectory, closeDirectory, openTable, closeTable, directory, present, table,
          mapped, cleared]

theorem Ready.map_present (ready : m.Ready) {virt : Word} (ordinary : pageDirectoryIndex virt < 1023)
    (present : isPresent (m.pdeOf virt) = true) (phys flags : Word) :
    m.vmmngrMap 0#32 phys virt flags =
      some (.success, m.write (m.tableOf virt) (pageTableIndex virt)
        (entryWith (m.pteOf virt) (entryPresent ||| flags) phys)) := by
  have directory := (ready.own.directory (pageDirectoryIndex_lt virt)).load
  have entry := (ready.shows ordinary present).setEntry (pageTableIndex_lt virt) (entryPresent ||| flags) phys
  rw [pdeOf] at present
  simp only [Option.bind_eq_some_iff] at entry
  obtain ⟨middle, attrib, frame⟩ := entry
  simp [vmmngrMap, openDirectory, closeDirectory, openTable, closeTable, directory, present, attrib, frame]
  rfl

theorem Ready.map_oom (ready : m.Ready) {virt : Word} (absent : isPresent (m.pdeOf virt) = false)
    {pmm : Pmm} (full : m.pmm.allocBlock = (0#32, pmm)) (phys flags : Word) :
    m.vmmngrMap 0#32 phys virt flags = some (.oom, m.withPmm pmm) := by
  have directory := (ready.own.directory (pageDirectoryIndex_lt virt)).load
  rw [pdeOf] at absent
  simp [vmmngrMap, openDirectory, closeDirectory, directory, absent, full, withPmm]

/-! ## Through the temporary slots -/

theorem frameOf_temporary {frame : Word} (aligned : Aligned frame) :
    frameOf (frame ||| entryPresent ||| entryWritable) = frame := by
  rw [BitVec.or_assoc, BitVec.or_comm]
  exact frameOf_or aligned rfl

theorem isPresent_temporary (frame : Word) : isPresent (frame ||| entryPresent ||| entryWritable) = true := by
  rw [isPresent_iff, BitVec.getLsbD_or, BitVec.getLsbD_or, show entryPresent.getLsbD 0 = true from rfl]
  simp

theorem Ready.storeTemp (ready : m.Ready) {t : Nat} (ht : t < 1024) (value : Word) :
    m.store (entryAddr (pageTableAddr 768) t) value = some (m.write m.kernelTable t value) :=
  (ready.own.window (table_splits (by decide) ht) ready.kernel).store value

theorem Ready.kernelTable_ne (ready : m.Ready) : m.kernelTable ≠ m.cr3 :=
  ready.apart 768 (by decide) ready.kernel

theorem Ready.showsTemp (ready : m.Ready) {table frame : Word} {t : Nat}
    (splits : ∀ k < 1024, Splits (entryAddr table k) 768 t k) (aligned : Aligned frame)
    (notRoot : frame ≠ m.cr3) (notTable : frame ≠ m.kernelTable) :
    (m.write m.kernelTable t (frame ||| entryPresent ||| entryWritable)).Shows table frame := by
  have root := word_write_frame ready.kernelTable_ne.symm m t (frame ||| entryPresent ||| entryWritable)
  refine shows_temporary splits ?_ notRoot ?_ ?_ ?_
  all_goals simp only [cr3_write, root]
  · exact ready.kernel
  · exact notTable
  · rw [show frameOf (m.word m.cr3 768) = m.kernelTable from rfl, word_write_self]
    exact isPresent_temporary frame
  · rw [show frameOf (m.word m.cr3 768) = m.kernelTable from rfl, word_write_self]
    exact frameOf_temporary aligned

theorem Ready.congr (ready : m.Ready) {k : Vm} (root : k.cr3 = m.cr3)
    (same : k.word m.cr3 = m.word m.cr3) : k.Ready := by
  refine ⟨⟨?_, ?_⟩, ?_, ?_⟩ <;> rw [root, same]
  · exact ready.own.present
  · exact ready.own.frame
  · exact ready.kernel
  · exact ready.apart

theorem kernelTable_congr {k : Vm} (root : k.cr3 = m.cr3) (same : k.word m.cr3 = m.word m.cr3) :
    k.kernelTable = m.kernelTable := by
  rw [kernelTable, root, same, kernelTable]

/-- The frame that `vmmngr_map` fills as a new table, with one entry. -/
def newTable (old : Nat → Word) (idx : Nat) (entry : Word) (k : Nat) : Word :=
  if k = idx then entry else if k < 1024 then 0#32 else old k

/-- Memory after a new table at `frame` has been put into the active directory. -/
def withTable (m : Vm) (virt frame phys flags : Word) : Vm :=
  ((m.write m.cr3 (pageDirectoryIndex virt) (entryWith (m.pdeOf virt) (flags ||| entryPresent) frame)).setWords
    frame (newTable (m.word frame) (pageTableIndex virt) (entryWith 0#32 (entryPresent ||| flags) phys))).write
    m.kernelTable 1022 0#32

theorem Ready.writeEntry (ready : m.Ready) {d : Nat} (ordinary : d < 1023) {entry : Word}
    (present : isPresent entry = true) (other : frameOf entry ≠ m.cr3) :
    (m.write m.cr3 d entry).Ready := by
  refine ⟨ready.own.write (.inr (by omega)) entry, ?_, ?_⟩
  · rw [cr3_write, word_write]
    split_ifs
    · exact present
    · exact ready.kernel
  · intro k hk
    rw [cr3_write, word_write]
    split_ifs
    · exact fun _ => other
    · exact ready.apart k hk

theorem Ready.fillTable (ready : m.Ready) {frame : Word} (aligned : Aligned frame)
    (notRoot : frame ≠ m.cr3) (notTable : frame ≠ m.kernelTable) {idx : Nat} (hidx : idx < 1024)
    (attrib phys : Word) :
    (do
      let m ← m.mapTemporaryPt frame
      let m ← m.clearTable vmmngrTempTable 1024 0
      let m ← m.pageEntryAddAttrib (entryAddr vmmngrTempTable idx) attrib
      let m ← m.pageEntrySetFrame (entryAddr vmmngrTempTable idx) phys
      m.closeTable true) =
      some ((m.setWords frame (newTable (m.word frame) idx (entryWith 0#32 attrib phys))).write
        m.kernelTable 1022 0#32) := by
  have opened := ready.storeTemp (t := 1022) (by decide) (frame ||| entryPresent ||| entryWritable)
  have shown := ready.showsTemp (t := 1022) (fun k hk => tempTable_splits hk) aligned notRoot notTable
  set slot := m.write m.kernelTable 1022 (frame ||| entryPresent ||| entryWritable) with slotDef
  have slotFrame : slot.word frame = m.word frame := word_write_frame notTable _ _ _
  have cleared := shown.clearTable (n := 1024) (i := 0) (by decide)
  set blank := slot.setWords frame (fun k => if 0 ≤ k ∧ k < 0 + 1024 then 0#32 else slot.word frame k)
    with blankDef
  have entry := (shown.setWords (fun k => if 0 ≤ k ∧ k < 0 + 1024 then 0#32 else slot.word frame k)).setEntry
    hidx attrib phys
  rw [← blankDef] at entry
  have blankWord : blank.word frame idx = 0#32 := by
    simp [blankDef, word_setWords, hidx]
  rw [blankWord] at entry
  obtain ⟨middle, added, set⟩ := Option.bind_eq_some_iff.mp entry
  -- closing the slot: the directory was not touched in between
  have root : (blank.write frame idx (entryWith 0#32 attrib phys)).word m.cr3 = m.word m.cr3 := by
    rw [word_write_frame notRoot.symm, blankDef, word_setWords, if_neg notRoot.symm, slotDef,
      word_write_frame ready.kernelTable_ne.symm]
  have sameRoot : (blank.write frame idx (entryWith 0#32 attrib phys)).cr3 = m.cr3 := rfl
  have closed := (ready.congr sameRoot root).storeTemp (t := 1022) (by decide) 0#32
  rw [kernelTable_congr sameRoot root] at closed
  have result : (blank.write frame idx (entryWith 0#32 attrib phys)).write m.kernelTable 1022 0#32 =
      (m.setWords frame (newTable (m.word frame) idx (entryWith 0#32 attrib phys))).write
        m.kernelTable 1022 0#32 := by
    have words : newTable (m.word frame) idx (entryWith 0#32 attrib phys) =
        Function.update (blank.word frame) idx (entryWith 0#32 attrib phys) := by
      funext k
      by_cases here : k = idx
      · simp [newTable, here]
      · simp [newTable, here, blankDef, word_setWords, slotFrame]
    refine congrArg (fun word => Vm.mk word m.cr3 m.pmm) ?_
    funext g k
    by_cases kernel : g = m.kernelTable
    · subst kernel
      by_cases here : k = 1022 <;> simp [write, setWords, blankDef, slotDef, notTable.symm, here]
    · by_cases here : g = frame
      · subst here
        simp [write, setWords, kernel, words]
      · simp [write, setWords, blankDef, slotDef, kernel, here]
  rw [result] at closed
  simp only [mapTemporaryPt, Option.bind_eq_bind]
  rw [show tempTableEntry = entryAddr (pageTableAddr 768) 1022 from rfl, opened, Option.bind_some, cleared,
    Option.bind_some, added, Option.bind_some, set, Option.bind_some]
  exact closed

theorem Ready.map_absent (ready : m.Ready) {virt frame : Word} (ordinary : pageDirectoryIndex virt < 1023)
    (absent : isPresent (m.pdeOf virt) = false) {pmm : Pmm} (found : m.pmm.allocBlock = (frame, pmm))
    (nonzero : frame ≠ 0#32) (aligned : Aligned frame) (notRoot : frame ≠ m.cr3)
    (notTable : frame ≠ m.kernelTable) (phys flags : Word) :
    m.vmmngrMap 0#32 phys virt flags = some (.success, (m.withPmm pmm).withTable virt frame phys flags) := by
  have directory := (ready.own.directory (pageDirectoryIndex_lt virt)).load
  -- the new directory entry
  have allocated : (m.withPmm pmm).Ready := ready.congr rfl rfl
  have entry := allocated.own.setEntry ordinary (flags ||| entryPresent) frame
  obtain ⟨middle, added, set⟩ := Option.bind_eq_some_iff.mp entry
  set linked := (m.withPmm pmm).write m.cr3 (pageDirectoryIndex virt)
    (entryWith (m.pdeOf virt) (flags ||| entryPresent) frame) with linkedDef
  have linkedReady : linked.Ready := by
    refine allocated.writeEntry ordinary (isPresent_entryWith _ _ _ ?_) ?_
    · rw [BitVec.getLsbD_or, show entryPresent.getLsbD 0 = true from rfl, Bool.or_true]
    · rwa [frameOf_entryWith _ _ aligned]
  have sameKernel : linked.kernelTable = m.kernelTable := by
    have : (768 : Nat) ≠ pageDirectoryIndex virt := by
      intro same
      have kernel := ready.kernel
      rw [same, show m.word m.cr3 (pageDirectoryIndex virt) = m.pdeOf virt from rfl, absent] at kernel
      cases kernel
    simp [linkedDef, kernelTable, word_write, this]
  -- the new table
  have filled := linkedReady.fillTable aligned notRoot (by rwa [sameKernel]) (pageTableIndex_lt virt)
    (entryPresent ||| flags) phys
  rw [sameKernel, linkedDef, word_write_frame notRoot, ← linkedDef] at filled
  simp only [Option.bind_eq_bind, Option.bind_eq_some_iff] at filled
  obtain ⟨slot, opened, blank, cleared, attrib, addedEntry, table, setFrame, closed⟩ := filled
  have start : Vm.mk m.word m.cr3 pmm = m.withPmm pmm := rfl
  rw [pdeOf] at absent
  simp only [vmmngrMap, openDirectory, closeDirectory, if_true, directory, Option.bind_eq_bind,
    Option.bind_some, absent, found, Bool.not_false, nonzero, if_false, start, added, set]
  rw [show (m.withPmm pmm).write (m.withPmm pmm).cr3 (pageDirectoryIndex virt)
    (entryWith ((m.withPmm pmm).word (m.withPmm pmm).cr3 (pageDirectoryIndex virt))
      (flags ||| entryPresent) frame) = linked from rfl, opened]
  simp only [Option.bind_some, cleared, addedEntry, setFrame, closed]
  rfl

/-! ## New directories -/

/-- The frame that `vmmngr_alloc_page_directory` fills. -/
def newDirectory (kernel old : Nat → Word) (pd : Word) (k : Nat) : Word :=
  if k = 1023 then entryWith (kernel 1023) (entryPresent ||| entryWritable) pd
  else if k < 1024 then kernel k else old k

/-- Memory after `vmmngr_alloc_page_directory` has filled the frame `pd`. -/
def withDirectory (m : Vm) (kernelPd pd : Word) : Vm :=
  (m.setWords pd (newDirectory (m.word kernelPd) (m.word pd) pd)).write m.kernelTable 1023 0#32

theorem Ready.allocPageDirectory (ready : m.Ready) {kernelPd pd : Word} {pmm : Pmm}
    (found : m.pmm.allocBlock = (pd, pmm)) (nonzero : pd ≠ 0#32) (aligned : Aligned pd)
    (notRoot : pd ≠ m.cr3) (notTable : pd ≠ m.kernelTable) (notKernel : kernelPd ≠ pd)
    (kernelNotTable : kernelPd ≠ m.kernelTable) :
    m.vmmngrAllocPageDirectory kernelPd = some (pd, (m.withPmm pmm).withDirectory kernelPd pd) := by
  have allocated : (m.withPmm pmm).Ready := ready.congr rfl rfl
  have opened := allocated.storeTemp (t := 1023) (by decide) (pd ||| entryPresent ||| entryWritable)
  have shown := allocated.showsTemp (t := 1023) (fun k hk => tempPd_splits hk) aligned notRoot notTable
  set slot := (m.withPmm pmm).write (m.withPmm pmm).kernelTable 1023 (pd ||| entryPresent ||| entryWritable)
    with slotDef
  have copied := shown.copyDirectory notKernel (n := 1024) (i := 0) (by decide)
  have kernelWords : slot.word kernelPd = m.word kernelPd := word_write_frame kernelNotTable _ _ _
  have oldWords : slot.word pd = m.word pd := word_write_frame notTable _ _ _
  set copy := fun k => if 0 ≤ k ∧ k < 0 + 1024 then slot.word kernelPd k else slot.word pd k with copyDef
  have entry := (shown.setWords copy).setEntry (k := 1023) (by decide) (entryPresent ||| entryWritable) pd
  have copiedLast : (slot.setWords pd copy).word pd 1023 = m.word kernelPd 1023 := by
    rw [word_setWords, if_pos rfl, copyDef]
    simp [kernelWords]
  rw [copiedLast] at entry
  obtain ⟨middle, added, set⟩ := Option.bind_eq_some_iff.mp entry
  set last := entryWith (m.word kernelPd 1023) (entryPresent ||| entryWritable) pd with lastDef
  -- closing the slot: the active directory was not touched in between
  have root : ((slot.setWords pd copy).write pd 1023 last).word m.cr3 = m.word m.cr3 := by
    rw [word_write_frame notRoot.symm, word_setWords, if_neg notRoot.symm, slotDef]
    exact word_write_frame ready.kernelTable_ne.symm _ _ _
  have sameRoot : ((slot.setWords pd copy).write pd 1023 last).cr3 = m.cr3 := rfl
  have closed := (ready.congr sameRoot root).storeTemp (t := 1023) (by decide) 0#32
  rw [kernelTable_congr sameRoot root] at closed
  have result : ((slot.setWords pd copy).write pd 1023 last).write m.kernelTable 1023 0#32 =
      (m.withPmm pmm).withDirectory kernelPd pd := by
    have words : newDirectory (m.word kernelPd) (m.word pd) pd = Function.update copy 1023 last := by
      funext k
      by_cases here : k = 1023
      · simp [newDirectory, here, lastDef]
      · simp [newDirectory, here, copyDef, kernelWords, oldWords]
    refine congrArg (fun word => Vm.mk word m.cr3 pmm) ?_
    funext g k
    by_cases kernel : g = m.kernelTable
    · subst kernel
      by_cases here : k = 1023 <;> simp [write, setWords, slotDef, notTable.symm, here]
    · by_cases here : g = pd
      · subst here
        simp [write, setWords, kernel, words]
      · simp [write, setWords, slotDef, kernel, here]
  rw [result] at closed
  have start : Vm.mk m.word m.cr3 pmm = m.withPmm pmm := rfl
  simp only [vmmngrAllocPageDirectory, found, nonzero, if_false, start, Option.bind_eq_bind, mapTemporaryPd,
    show tempPdEntry = entryAddr (pageTableAddr 768) 1023 from rfl, opened, Option.bind_some, copied, added, set,
    unmapTemporaryPd, closed]
  rfl

theorem allocPageDirectory_none {kernelPd : Word} {pmm : Pmm} (full : m.pmm.allocBlock = (0#32, pmm)) :
    m.vmmngrAllocPageDirectory kernelPd = some (0#32, m.withPmm pmm) := by
  simp [vmmngrAllocPageDirectory, full, withPmm]

/-! ## The lazy copy of a directory entry -/

theorem Recursive.fault (own : m.Recursive m.cr3) (kernelPd faulting : Word) :
    m.pageFaultHandler kernelPd faulting =
      if kernelStart ≤ faulting ∧ isPresent (m.pdeOf faulting) = false ∧
          isPresent (m.word kernelPd (pageDirectoryIndex faulting)) = true then
        some (true, m.write m.cr3 (pageDirectoryIndex faulting) (m.word kernelPd (pageDirectoryIndex faulting)))
      else some (false, m) := by
  have window := own.directory (pageDirectoryIndex_lt faulting)
  have load := window.load
  rw [show m.word m.cr3 (pageDirectoryIndex faulting) = m.pdeOf faulting from rfl] at load
  by_cases low : faulting < kernelStart
  · simp [pageFaultHandler, low]
  · have high : kernelStart ≤ faulting := BitVec.not_lt.mp low
    cases present : isPresent (m.pdeOf faulting) <;>
      cases source : isPresent (m.word kernelPd (pageDirectoryIndex faulting)) <;>
        simp [pageFaultHandler, low, high, load, present, source, window.store]

end Kerosene.Mem.Vm
