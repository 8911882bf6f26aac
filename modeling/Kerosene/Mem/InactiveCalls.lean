import Kerosene.Mem.PageMap

/-!
# The calls of vmmngr.c on a directory that is not active

The directory and one table of it at a time are reached through the two temporary slots, which are
closed again at the end of every call.
-/

namespace Kerosene.Mem.Vm
variable {m : Vm} {pd virt : Word}

/-- A directory other than the active one, and not the table of the temporary slots. -/
structure Foreign (m : Vm) (pd : Word) : Prop where
  ready : m.Ready
  aligned : Aligned pd
  nonzero : pd ≠ 0#32
  notRoot : pd ≠ m.cr3
  notTable : pd ≠ m.kernelTable

def openedPd (m : Vm) (pd : Word) : Vm := m.write m.kernelTable 1023 (pd ||| entryPresent ||| entryWritable)
def openedPt (m : Vm) (table : Word) : Vm := m.write m.kernelTable 1022 (table ||| entryPresent ||| entryWritable)

/-- Both temporary slots closed. -/
def shut (m : Vm) (kernel : Word) : Vm := (m.write kernel 1022 0#32).write kernel 1023 0#32

@[simp] theorem cr3_shut (m : Vm) (kernel : Word) : (m.shut kernel).cr3 = m.cr3 := rfl
@[simp] theorem pmm_shut (m : Vm) (kernel : Word) : (m.shut kernel).pmm = m.pmm := rfl

theorem word_shut (m : Vm) (kernel g : Word) (k : Nat) :
    (m.shut kernel).word g k = if g = kernel ∧ (k = 1022 ∨ k = 1023) then 0#32 else m.word g k := by
  simp only [shut, word_write]
  by_cases frames : g = kernel <;> by_cases low : k = 1022 <;> by_cases high : k = 1023 <;> simp [frames, low, high]

theorem word_shut_frame {kernel g : Word} (other : g ≠ kernel) (m : Vm) : (m.shut kernel).word g = m.word g := by
  funext k
  rw [word_shut, if_neg (fun h => other h.1)]

theorem shut_congr {m' : Vm} {kernel : Word} (root : m'.cr3 = m.cr3) (pmm : m'.pmm = m.pmm)
    (words : ∀ g k, ¬ (g = kernel ∧ (k = 1022 ∨ k = 1023)) → m'.word g k = m.word g k) :
    m'.shut kernel = m.shut kernel := by
  have same : (m'.shut kernel).word = (m.shut kernel).word := by
    funext g k
    rw [word_shut, word_shut]
    split_ifs with slot
    · rfl
    · exact words g k slot
  calc m'.shut kernel = ⟨(m'.shut kernel).word, m'.cr3, m'.pmm⟩ := rfl
    _ = ⟨(m.shut kernel).word, m.cr3, m.pmm⟩ := by rw [same, root, pmm]
    _ = m.shut kernel := rfl

/-! ## Opening the slots -/

theorem Ready.writeKernel (ready : m.Ready) (idx : Nat) (value : Word) : (m.write m.kernelTable idx value).Ready :=
  ready.congr rfl (word_write_frame ready.kernelTable_ne.symm _ _ _)

theorem Ready.kernelTable_writeKernel (ready : m.Ready) (idx : Nat) (value : Word) :
    (m.write m.kernelTable idx value).kernelTable = m.kernelTable :=
  kernelTable_congr rfl (word_write_frame ready.kernelTable_ne.symm _ _ _)

theorem Foreign.openDirectory (foreign : m.Foreign pd) : m.openDirectory pd = some (vmmngrTempPd, m.openedPd pd) := by
  have stored := foreign.ready.storeTemp (t := 1023) (by decide) (pd ||| entryPresent ||| entryWritable)
  simp only [Vm.openDirectory, foreign.nonzero, if_false, mapTemporaryPd, Option.bind_eq_bind]
  rw [show tempPdEntry = entryAddr (pageTableAddr 768) 1023 from rfl, stored]
  rfl

theorem Foreign.shows (foreign : m.Foreign pd) : (m.openedPd pd).Shows vmmngrTempPd pd :=
  foreign.ready.showsTemp (fun _ hk => tempPd_splits hk) foreign.aligned foreign.notRoot foreign.notTable

theorem Foreign.loadEntry (foreign : m.Foreign pd) {i : Nat} (hi : i < 1024) :
    (m.openedPd pd).load (entryAddr vmmngrTempPd i) = some (m.word pd i) := by
  rw [(foreign.shows.window hi).load, openedPd, word_write_frame foreign.notTable]

theorem Foreign.openTable (foreign : m.Foreign pd) (entry virt : Word) :
    (m.openedPd pd).openTable pd entry virt = some (vmmngrTempTable, true, (m.openedPd pd).openedPt (frameOf entry)) := by
  have stored := (foreign.ready.writeKernel 1023 (pd ||| entryPresent ||| entryWritable)).storeTemp (t := 1022)
    (by decide) (frameOf entry ||| entryPresent ||| entryWritable)
  simp only [Vm.openTable, foreign.nonzero, if_false, mapTemporaryPt, Option.bind_eq_bind]
  rw [show tempTableEntry = entryAddr (pageTableAddr 768) 1022 from rfl, openedPd, stored]
  rfl

theorem Ready.slotWindow (ready : m.Ready) {window frame : Word} {t : Nat}
    (splits : ∀ k < 1024, Splits (entryAddr window k) 768 t k) (aligned : Aligned frame)
    (slot : m.word m.kernelTable t = frame ||| entryPresent ||| entryWritable) {k : Nat} (hk : k < 1024) :
    m.Window (entryAddr window k) frame k := by
  have shown := window_of_splits (m := m) (splits k hk) ready.kernel
    (by rw [show frameOf (m.word m.cr3 768) = m.kernelTable from rfl, slot]; exact isPresent_temporary frame)
  rw [show frameOf (m.word m.cr3 768) = m.kernelTable from rfl, slot, frameOf_temporary aligned] at shown
  exact shown

theorem Ready.tableWindow (ready : m.Ready) {table : Word} (aligned : Aligned table)
    (slot : m.word m.kernelTable 1022 = table ||| entryPresent ||| entryWritable) {k : Nat} (hk : k < 1024) :
    m.Window (entryAddr vmmngrTempTable k) table k :=
  ready.slotWindow (fun _ hk => tempTable_splits hk) aligned slot hk

/-- Memory with the slots open on `pd` and on `table`. -/
def bothOpen (m : Vm) (pd table : Word) : Vm := (m.openedPd pd).openedPt table

theorem Foreign.bothOpen_eq (foreign : m.Foreign pd) (table : Word) :
    m.bothOpen pd table = (m.write m.kernelTable 1023 (pd ||| entryPresent ||| entryWritable)).write m.kernelTable 1022
      (table ||| entryPresent ||| entryWritable) := by
  rw [bothOpen, openedPt, openedPd, foreign.ready.kernelTable_writeKernel]

theorem Foreign.word_bothOpen (foreign : m.Foreign pd) (table g : Word) (k : Nat)
    (outside : ¬ (g = m.kernelTable ∧ (k = 1022 ∨ k = 1023))) : (m.bothOpen pd table).word g k = m.word g k := by
  rw [foreign.bothOpen_eq, word_write, word_write, if_neg (fun h => outside ⟨h.1, .inl h.2⟩),
    if_neg (fun h => outside ⟨h.1, .inr h.2⟩)]

theorem Foreign.word_bothOpen_slot (foreign : m.Foreign pd) (table : Word) {k : Nat} (slot : k = 1022 ∨ k = 1023) :
    isPresent ((m.bothOpen pd table).word m.kernelTable k) = true := by
  rw [foreign.bothOpen_eq, word_write, word_write]
  rcases slot with rfl | rfl
  · rw [if_pos ⟨rfl, rfl⟩]
    exact isPresent_temporary table
  · rw [if_neg (by simp), if_pos ⟨rfl, rfl⟩]
    exact isPresent_temporary pd

theorem Foreign.ready_bothOpen (foreign : m.Foreign pd) (table : Word) : (m.bothOpen pd table).Ready := by
  have first := foreign.ready.writeKernel 1023 (pd ||| entryPresent ||| entryWritable)
  exact first.writeKernel 1022 (table ||| entryPresent ||| entryWritable)

theorem Foreign.kernelTable_bothOpen (foreign : m.Foreign pd) (table : Word) :
    (m.bothOpen pd table).kernelTable = m.kernelTable := by
  have first := foreign.ready.writeKernel 1023 (pd ||| entryPresent ||| entryWritable)
  exact (first.kernelTable_writeKernel 1022 _).trans (foreign.ready.kernelTable_writeKernel 1023 _)

theorem Foreign.slot_bothOpen (foreign : m.Foreign pd) (table : Word) :
    (m.bothOpen pd table).word (m.bothOpen pd table).kernelTable 1022 = table ||| entryPresent ||| entryWritable := by
  rw [foreign.kernelTable_bothOpen, foreign.bothOpen_eq, word_write_self]

theorem Foreign.close (foreign : m.Foreign pd) {k : Vm} (root : k.cr3 = m.cr3)
    (same : k.word m.cr3 = m.word m.cr3) :
    (k.closeTable true).bind (fun m => m.closeDirectory pd) = some (k.shut m.kernelTable) := by
  have ready : k.Ready := foreign.ready.congr root same
  have kernel : k.kernelTable = m.kernelTable := kernelTable_congr root same
  have first := ready.storeTemp (t := 1022) (by decide) 0#32
  have second := (ready.writeKernel 1022 0#32).storeTemp (t := 1023) (by decide) 0#32
  rw [ready.kernelTable_writeKernel, kernel] at second
  rw [kernel] at first
  simp only [closeTable, if_true, unmapTemporaryPt, closeDirectory, foreign.nonzero, if_false, unmapTemporaryPd]
  rw [show tempTableEntry = entryAddr (pageTableAddr 768) 1022 from rfl,
    show tempPdEntry = entryAddr (pageTableAddr 768) 1023 from rfl, first, Option.bind_some, second]
  rfl

theorem Foreign.closeDirectory (foreign : m.Foreign pd) {k : Vm} (root : k.cr3 = m.cr3)
    (same : k.word m.cr3 = m.word m.cr3) : k.closeDirectory pd = some (k.write m.kernelTable 1023 0#32) := by
  have ready : k.Ready := foreign.ready.congr root same
  have stored := ready.storeTemp (t := 1023) (by decide) 0#32
  rw [kernelTable_congr root same] at stored
  simp only [Vm.closeDirectory, foreign.nonzero, if_false, unmapTemporaryPd]
  exact stored

/-! ## The calls -/

/-- What a call sees of the page table entry: the temporary slots themselves look present. -/
def seenEntry (m : Vm) (pd virt : Word) : Word :=
  (m.bothOpen pd (frameOf (m.word pd (pageDirectoryIndex virt)))).word (frameOf (m.word pd (pageDirectoryIndex virt)))
    (pageTableIndex virt)

/-- A page that is found present is looked up once more when the slots are closed, which faults. -/
theorem Foreign.toPhysicalAddr (foreign : m.Foreign pd) (virt : Word) :
    (m.vmmngrToPhysicalAddr pd virt).map Prod.fst =
      if isPresent (m.word pd (pageDirectoryIndex virt)) && isPresent (m.seenEntry pd virt) then none else some 0#32 := by
  have opened := foreign.openDirectory
  have entry := foreign.loadEntry (pageDirectoryIndex_lt virt)
  have root₁ : (m.openedPd pd).word m.cr3 = m.word m.cr3 := word_write_frame foreign.ready.kernelTable_ne.symm _ _ _
  cases present : isPresent (m.word pd (pageDirectoryIndex virt)) with
  | false =>
      have closed := foreign.closeDirectory (k := m.openedPd pd) rfl root₁
      simp [vmmngrToPhysicalAddr, opened, entry, present, closed]
  | true =>
      set table := frameOf (m.word pd (pageDirectoryIndex virt)) with tableDef
      have openedTable := foreign.openTable (m.word pd (pageDirectoryIndex virt)) virt
      rw [← tableDef, show (m.openedPd pd).openedPt table = m.bothOpen pd table from rfl] at openedTable
      have window := (foreign.ready_bothOpen table).tableWindow (frameOf_aligned _) (foreign.slot_bothOpen table)
        (pageTableIndex_lt virt)
      have page := window.load
      rw [show (m.bothOpen pd table).word table (pageTableIndex virt) = m.seenEntry pd virt from rfl] at page
      have root₂ : (m.bothOpen pd table).word m.cr3 = m.word m.cr3 := by
        funext k
        exact foreign.word_bothOpen table _ k fun h => foreign.ready.kernelTable_ne h.1.symm
      obtain ⟨shutTable, closedTable, closed⟩ := Option.bind_eq_some_iff.mp
        (foreign.close (k := m.bothOpen pd table) rfl root₂)
      cases mapped : isPresent (m.seenEntry pd virt) with
      | false =>
          simp [vmmngrToPhysicalAddr, opened, entry, present, openedTable, page, mapped, closedTable, closed]
      | true =>
          have faults : ((m.bothOpen pd table).shut m.kernelTable).load
              (entryAddr vmmngrTempTable (pageTableIndex virt)) = none := by
            have splits := tempTable_splits (pageTableIndex_lt virt)
            have root : ((m.bothOpen pd table).shut m.kernelTable).word m.cr3 = m.word m.cr3 := by
              rw [word_shut_frame foreign.ready.kernelTable_ne.symm, root₂]
            have slot : ((m.bothOpen pd table).shut m.kernelTable).word m.kernelTable 1022 = 0#32 := by
              rw [word_shut, if_pos ⟨rfl, .inl rfl⟩]
            have gone : ((m.bothOpen pd table).shut m.kernelTable).walk m.cr3
                (entryAddr vmmngrTempTable (pageTableIndex virt)) = none := by
              simp only [walk, splits.directory, splits.table, root, foreign.ready.kernel, if_true]
              rw [show frameOf (m.word m.cr3 768) = m.kernelTable from rfl, slot]
              rfl
            rw [load, show ((m.bothOpen pd table).shut m.kernelTable).cr3 = m.cr3 from rfl, gone, Option.map_none]
          simp [vmmngrToPhysicalAddr, opened, entry, present, openedTable, page, mapped, closedTable, closed, faults]

/-- The table of `virt` in a directory that has one. -/
def tableIn (m : Vm) (pd virt : Word) : Word := frameOf (m.word pd (pageDirectoryIndex virt))

/-- The page table entry of `virt` can be changed through the slots. -/
structure Reachable (m : Vm) (pd virt : Word) : Prop where
  present : isPresent (m.word pd (pageDirectoryIndex virt)) = true
  notRoot : m.tableIn pd virt ≠ m.cr3
  notSlot : ¬ (m.tableIn pd virt = m.kernelTable ∧ (pageTableIndex virt = 1022 ∨ pageTableIndex virt = 1023))

section Reached
variable (foreign : m.Foreign pd) (reachable : m.Reachable pd virt)
include foreign reachable

theorem Foreign.entryWindow (value : Word) :
    ((m.bothOpen pd (m.tableIn pd virt)).write (m.tableIn pd virt) (pageTableIndex virt) value).Window
      (entryAddr vmmngrTempTable (pageTableIndex virt)) (m.tableIn pd virt) (pageTableIndex virt) := by
  have root : ((m.bothOpen pd (m.tableIn pd virt)).write (m.tableIn pd virt) (pageTableIndex virt) value).word m.cr3 =
      (m.bothOpen pd (m.tableIn pd virt)).word m.cr3 := word_write_frame reachable.notRoot.symm _ _ _
  have ready := (foreign.ready_bothOpen (m.tableIn pd virt)).congr (k := (m.bothOpen pd (m.tableIn pd virt)).write
    (m.tableIn pd virt) (pageTableIndex virt) value) rfl root
  have kernel := kernelTable_congr (m := m.bothOpen pd (m.tableIn pd virt)) (k := (m.bothOpen pd (m.tableIn pd virt)).write
    (m.tableIn pd virt) (pageTableIndex virt) value) rfl root
  refine ready.tableWindow (frameOf_aligned _) ?_ (pageTableIndex_lt virt)
  rw [kernel, foreign.kernelTable_bothOpen, word_write, if_neg, ← foreign.kernelTable_bothOpen (m.tableIn pd virt)]
  · exact foreign.slot_bothOpen (m.tableIn pd virt)
  rintro ⟨isKernel, isSlot⟩
  exact reachable.notSlot ⟨isKernel.symm, .inl isSlot.symm⟩

omit reachable in
theorem Foreign.openWindow {v : Word} : (m.bothOpen pd (m.tableIn pd v)).Window
    (entryAddr vmmngrTempTable (pageTableIndex v)) (m.tableIn pd v) (pageTableIndex v) :=
  (foreign.ready_bothOpen _).tableWindow (frameOf_aligned _) (foreign.slot_bothOpen _) (pageTableIndex_lt v)

theorem Foreign.openWord : (m.bothOpen pd (m.tableIn pd virt)).word (m.tableIn pd virt) (pageTableIndex virt) =
    m.word (m.tableIn pd virt) (pageTableIndex virt) :=
  foreign.word_bothOpen _ _ _ reachable.notSlot

theorem Foreign.closeEntry (value : Word) :
    ((((m.bothOpen pd (m.tableIn pd virt)).write (m.tableIn pd virt) (pageTableIndex virt) value).closeTable true).bind
        fun m => m.closeDirectory pd) =
      some ((m.write (m.tableIn pd virt) (pageTableIndex virt) value).shut m.kernelTable) := by
  have root : ((m.bothOpen pd (m.tableIn pd virt)).write (m.tableIn pd virt) (pageTableIndex virt) value).word m.cr3 =
      m.word m.cr3 := by
    rw [word_write_frame reachable.notRoot.symm]
    funext k
    exact foreign.word_bothOpen _ _ k fun h => foreign.ready.kernelTable_ne h.1.symm
  rw [foreign.close (k := (m.bothOpen pd (m.tableIn pd virt)).write (m.tableIn pd virt) (pageTableIndex virt) value) rfl root]
  congr 1
  refine shut_congr rfl rfl fun g k outside => ?_
  rw [word_write, word_write, foreign.word_bothOpen _ g k outside]

theorem Foreign.map_present (phys flags : Word) :
    m.vmmngrMap pd phys virt flags =
      some (.success, (m.write (m.tableIn pd virt) (pageTableIndex virt)
        (entryWith (m.word (m.tableIn pd virt) (pageTableIndex virt)) (entryPresent ||| flags) phys)).shut m.kernelTable) := by
  have entry := Vm.setEntry (foreign.openWindow) (foreign.entryWindow reachable) (entryPresent ||| flags) phys
  rw [foreign.openWord reachable] at entry
  obtain ⟨middle, added, set⟩ := Option.bind_eq_some_iff.mp entry
  obtain ⟨shutTable, closedTable, closed⟩ := Option.bind_eq_some_iff.mp (foreign.closeEntry reachable
    (entryWith (m.word (m.tableIn pd virt) (pageTableIndex virt)) (entryPresent ||| flags) phys))
  have openedTable := foreign.openTable (m.word pd (pageDirectoryIndex virt)) virt
  rw [show (m.openedPd pd).openedPt (frameOf (m.word pd (pageDirectoryIndex virt))) =
    m.bothOpen pd (m.tableIn pd virt) from rfl] at openedTable
  simp only [vmmngrMap, foreign.openDirectory, Option.bind_eq_bind, Option.bind_some,
    foreign.loadEntry (pageDirectoryIndex_lt virt), reachable.present, Bool.not_true, Bool.false_eq_true, if_false, openedTable,
    added, set, closedTable, closed]
  rfl

theorem Foreign.unmap_present :
    m.vmmngrUnmap pd virt =
      some ((if isPresent (m.word (m.tableIn pd virt) (pageTableIndex virt)) then
        m.write (m.tableIn pd virt) (pageTableIndex virt) 0#32 else m).shut m.kernelTable) := by
  have window := foreign.openWindow (v := virt)
  have page := window.load
  rw [foreign.openWord reachable] at page
  have openedTable := foreign.openTable (m.word pd (pageDirectoryIndex virt)) virt
  rw [show (m.openedPd pd).openedPt (frameOf (m.word pd (pageDirectoryIndex virt))) =
    m.bothOpen pd (m.tableIn pd virt) from rfl] at openedTable
  cases mapped : isPresent (m.word (m.tableIn pd virt) (pageTableIndex virt)) with
  | true =>
      obtain ⟨shutTable, closedTable, closed⟩ := Option.bind_eq_some_iff.mp (foreign.closeEntry reachable 0#32)
      simp only [vmmngrUnmap, foreign.openDirectory, Option.bind_eq_bind, Option.bind_some,
        foreign.loadEntry (pageDirectoryIndex_lt virt), reachable.present, Bool.not_true, Bool.false_eq_true, if_false,
        openedTable, page, mapped, if_true, window.store, closedTable, closed]
  | false =>
      have root : (m.bothOpen pd (m.tableIn pd virt)).word m.cr3 = m.word m.cr3 := by
        funext k
        exact foreign.word_bothOpen _ _ k fun h => foreign.ready.kernelTable_ne h.1.symm
      obtain ⟨shutTable, closedTable, closed⟩ := Option.bind_eq_some_iff.mp
        (foreign.close (k := m.bothOpen pd (m.tableIn pd virt)) rfl root)
      have same : (m.bothOpen pd (m.tableIn pd virt)).shut m.kernelTable = m.shut m.kernelTable :=
        shut_congr rfl rfl fun g k outside => foreign.word_bothOpen _ g k outside
      rw [same] at closed
      simp only [vmmngrUnmap, foreign.openDirectory, Option.bind_eq_bind, Option.bind_some,
        foreign.loadEntry (pageDirectoryIndex_lt virt), reachable.present, Bool.not_true, Bool.false_eq_true, if_false,
        openedTable, page, mapped, closedTable, closed]

end Reached

theorem Foreign.unmap_absent (foreign : m.Foreign pd) (absent : isPresent (m.word pd (pageDirectoryIndex virt)) = false) :
    m.vmmngrUnmap pd virt = some (m.write m.kernelTable 1023 0#32) := by
  have closed := foreign.closeDirectory (k := m.openedPd pd) rfl
    (word_write_frame foreign.ready.kernelTable_ne.symm _ _ _)
  rw [openedPd, write_write] at closed
  simp [vmmngrUnmap, foreign.openDirectory, foreign.loadEntry (pageDirectoryIndex_lt virt), absent]
  exact closed

theorem Foreign.map_oom (foreign : m.Foreign pd) (absent : isPresent (m.word pd (pageDirectoryIndex virt)) = false)
    {pmm : Pmm} (full : m.pmm.allocBlock = (0#32, pmm)) (phys flags : Word) :
    m.vmmngrMap pd phys virt flags = some (.oom, (m.withPmm pmm).write m.kernelTable 1023 0#32) := by
  have closed := foreign.closeDirectory (k := (m.openedPd pd).withPmm pmm) rfl
    (word_write_frame foreign.ready.kernelTable_ne.symm _ _ _)
  have same : ((m.openedPd pd).withPmm pmm).write m.kernelTable 1023 0#32 =
      (m.withPmm pmm).write m.kernelTable 1023 0#32 :=
    write_write (m.withPmm pmm) m.kernelTable 1023 _ _
  rw [same] at closed
  have full' : (m.openedPd pd).pmm.allocBlock = (0#32, pmm) := full
  have start : Vm.mk (m.openedPd pd).word (m.openedPd pd).cr3 pmm = (m.openedPd pd).withPmm pmm := rfl
  simp only [vmmngrMap, foreign.openDirectory, Option.bind_eq_bind, Option.bind_some,
    foreign.loadEntry (pageDirectoryIndex_lt virt), absent, Bool.not_false, if_true, full', start, closed]
  rfl

theorem Foreign.map_of_present (foreign : m.Foreign pd) (present : isPresent (m.word pd (pageDirectoryIndex virt)) = true)
    {phys flags : Word} {err : MemErr} {m' : Vm} (mapped : m.vmmngrMap pd phys virt flags = some (err, m')) : err = .success := by
  simp only [vmmngrMap, foreign.openDirectory, Option.bind_eq_bind, Option.bind_some,
    foreign.loadEntry (pageDirectoryIndex_lt virt), present, Bool.not_true, Bool.false_eq_true, if_false,
    Option.bind_eq_some_iff, Option.pure_def, Option.some.injEq, Prod.mk.injEq] at mapped
  obtain ⟨_, _, _, _, _, _, _, _, _, _, rfl, _⟩ := mapped
  rfl

/-- Memory after a new table at `frame` has been put into the directory `pd`. -/
def withTableIn (m : Vm) (pd virt frame phys flags : Word) : Vm :=
  ((m.write pd (pageDirectoryIndex virt)
    (entryWith (m.word pd (pageDirectoryIndex virt)) (flags ||| entryPresent) frame)).setWords
    frame (newTable (m.word frame) (pageTableIndex virt) (entryWith 0#32 (entryPresent ||| flags) phys))).shut m.kernelTable

theorem Foreign.map_absent (foreign : m.Foreign pd) {frame : Word} {pmm : Pmm}
    (absent : isPresent (m.word pd (pageDirectoryIndex virt)) = false) (found : m.pmm.allocBlock = (frame, pmm))
    (nonzero : frame ≠ 0#32) (aligned : Aligned frame) (notRoot : frame ≠ m.cr3) (notTable : frame ≠ m.kernelTable)
    (notPd : frame ≠ pd) (phys flags : Word) :
    m.vmmngrMap pd phys virt flags = some (.success, (m.withPmm pmm).withTableIn pd virt frame phys flags) := by
  have allocated : (m.withPmm pmm).Foreign pd :=
    ⟨foreign.ready.congr rfl rfl, foreign.aligned, foreign.nonzero, foreign.notRoot, foreign.notTable⟩
  -- the new directory entry, through slot 1023
  have entry := allocated.shows.setEntry (pageDirectoryIndex_lt virt) (flags ||| entryPresent) frame
  obtain ⟨middle, added, set⟩ := Option.bind_eq_some_iff.mp entry
  have oldEntry : ((m.withPmm pmm).openedPd pd).word pd (pageDirectoryIndex virt) = m.word pd (pageDirectoryIndex virt) := by
    rw [openedPd, word_write_frame allocated.notTable]
    rfl
  rw [oldEntry] at set
  set linked := ((m.withPmm pmm).openedPd pd).write pd (pageDirectoryIndex virt)
    (entryWith (m.word pd (pageDirectoryIndex virt)) (flags ||| entryPresent) frame) with linkedDef
  have root : linked.word m.cr3 = m.word m.cr3 := by
    rw [linkedDef, word_write_frame foreign.notRoot.symm, openedPd]
    exact word_write_frame foreign.ready.kernelTable_ne.symm _ _ _
  have linkedReady : linked.Ready := foreign.ready.congr rfl root
  have sameKernel : linked.kernelTable = m.kernelTable := kernelTable_congr rfl root
  -- the new table, through slot 1022
  have filled := linkedReady.fillTable aligned notRoot (by rwa [sameKernel]) (pageTableIndex_lt virt)
    (entryPresent ||| flags) phys
  rw [sameKernel] at filled
  simp only [Option.bind_eq_bind, Option.bind_eq_some_iff] at filled
  obtain ⟨slot, opened, blank, cleared, attrib, addedEntry, table, setFrame, closedTable⟩ := filled
  have linkedFrame : linked.word frame = m.word frame := by
    rw [linkedDef, word_write_frame notPd, openedPd]
    exact word_write_frame notTable _ _ _
  set full := (linked.setWords frame (newTable (linked.word frame) (pageTableIndex virt)
    (entryWith 0#32 (entryPresent ||| flags) phys))).write m.kernelTable 1022 0#32 with fullDef
  have fullRoot : full.word m.cr3 = m.word m.cr3 := by
    rw [fullDef, word_write_frame foreign.ready.kernelTable_ne.symm, word_setWords, if_neg notRoot.symm, root]
  have closed := foreign.closeDirectory (k := full) rfl fullRoot
  have result : full.write m.kernelTable 1023 0#32 = (m.withPmm pmm).withTableIn pd virt frame phys flags := by
    refine shut_congr (m := ((m.withPmm pmm).write pd (pageDirectoryIndex virt)
      (entryWith (m.word pd (pageDirectoryIndex virt)) (flags ||| entryPresent) frame)).setWords frame
      (newTable (m.word frame) (pageTableIndex virt) (entryWith 0#32 (entryPresent ||| flags) phys))) rfl rfl
      fun g k outside => ?_
    rw [word_setWords, word_setWords, linkedFrame]
    split_ifs with isFrame
    · rfl
    · rw [linkedDef, word_write, word_write, openedPd, kernelTable_withPmm, word_write,
        if_neg (fun h : g = m.kernelTable ∧ k = 1023 => outside ⟨h.1, .inr h.2⟩)]
  rw [result] at closed
  have found' : (m.openedPd pd).pmm.allocBlock = (frame, pmm) := found
  have start : Vm.mk (m.openedPd pd).word (m.openedPd pd).cr3 pmm = (m.withPmm pmm).openedPd pd := rfl
  simp only [vmmngrMap, foreign.openDirectory, Option.bind_eq_bind, Option.bind_some,
    foreign.loadEntry (pageDirectoryIndex_lt virt), absent, Bool.not_false, if_true, found', nonzero, if_false, start, added,
    set, opened, cleared, addedEntry, setFrame, closedTable, closed]
  rfl

end Kerosene.Mem.Vm
