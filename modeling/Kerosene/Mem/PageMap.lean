import Kerosene.Mem.ActiveCalls

/-!
# The active page tables as a map from pages to frames
-/

namespace Kerosene.Mem
open Lib

def page (virt : Word) : Nat := virt.toNat / pageSize

theorem page_eq (virt : Word) : page virt = pageDirectoryIndex virt * 1024 + pageTableIndex virt := by
  rw [page, pageDirectoryIndex_eq, pageTableIndex_eq, pageSize]
  omega

theorem page_eq_iff (v w : Word) : page v = page w ↔
    pageDirectoryIndex v = pageDirectoryIndex w ∧ pageTableIndex v = pageTableIndex w := by
  have := pageTableIndex_lt v
  have := pageTableIndex_lt w
  rw [page_eq, page_eq]
  omega

/-- Outside the recursive window and the two temporary slots. -/
structure Ordinary (virt : Word) : Prop where
  below : virt.toNat < 0xffc00000
  notTempTable : page virt ≠ page vmmngrTempTable
  notTempPd : page virt ≠ page vmmngrTempPd

theorem Ordinary.index {virt : Word} (ordinary : Ordinary virt) : pageDirectoryIndex virt < 1023 := by
  rw [pageDirectoryIndex_eq]
  have := ordinary.below
  omega

namespace Vm
variable {m : Vm}

structure WellFormed (m : Vm) : Prop where
  ready : m.Ready
  distinct : ∀ c < 1023, ∀ d < 1023, isPresent (m.word m.cr3 c) = true → isPresent (m.word m.cr3 d) = true →
    frameOf (m.word m.cr3 c) = frameOf (m.word m.cr3 d) → c = d
  pmm : m.pmm.Sound

/-- The frame is neither the active directory nor one of its tables. -/
def Unused (m : Vm) (frame : Word) : Prop :=
  frame ≠ m.cr3 ∧ ∀ d < 1023, isPresent (m.word m.cr3 d) = true → frameOf (m.word m.cr3 d) ≠ frame

theorem translate_eq (m : Vm) (virt : Word) :
    m.translate virt =
      if isPresent (m.pdeOf virt) && isPresent (m.pteOf virt) then frameOf (m.pteOf virt) else 0#32 := by
  rw [translate, walk_eq]
  split_ifs <;> rfl

theorem translate_congr {m m' : Vm} {virt : Word} (directory : m'.pdeOf virt = m.pdeOf virt)
    (table : isPresent (m.pdeOf virt) = true → m'.pteOf virt = m.pteOf virt) :
    m'.translate virt = m.translate virt := by
  rw [translate_eq, translate_eq, directory]
  cases present : isPresent (m.pdeOf virt) with
  | false => simp
  | true => rw [table present]

/-! ## Writing one entry of a table -/

section WriteTable
variable {virt : Word} (wf : m.WellFormed) (ordinary : Ordinary virt)
  (present : isPresent (m.pdeOf virt) = true) (entry : Word)
include wf ordinary present

theorem WellFormed.writeTable_root :
    (m.write (m.tableOf virt) (pageTableIndex virt) entry).word m.cr3 = m.word m.cr3 :=
  word_write_frame (wf.ready.apart _ ordinary.index present).symm _ _ _

theorem WellFormed.writeTable_pdeOf (v : Word) :
    (m.write (m.tableOf virt) (pageTableIndex virt) entry).pdeOf v = m.pdeOf v := by
  rw [pdeOf, cr3_write, wf.writeTable_root ordinary present entry, pdeOf]

theorem WellFormed.writeTable_pteOf (v : Word) :
    (m.write (m.tableOf virt) (pageTableIndex virt) entry).pteOf v =
      if m.tableOf v = m.tableOf virt ∧ pageTableIndex v = pageTableIndex virt then entry else m.pteOf v := by
  have table : (m.write (m.tableOf virt) (pageTableIndex virt) entry).tableOf v = m.tableOf v :=
    congrArg frameOf (wf.writeTable_pdeOf ordinary present entry v)
  rw [pteOf, table, word_write]
  rfl

theorem WellFormed.writeTable : (m.write (m.tableOf virt) (pageTableIndex virt) entry).WellFormed := by
  have root := wf.writeTable_root ordinary present entry
  refine ⟨wf.ready.congr (cr3_write _ _ _ _) root, ?_, wf.pmm⟩
  rw [cr3_write, root]
  exact wf.distinct

theorem WellFormed.writeTable_translate :
    (m.write (m.tableOf virt) (pageTableIndex virt) entry).translate virt =
      if isPresent entry then frameOf entry else 0#32 := by
  have table := wf.writeTable_pteOf ordinary present entry virt
  rw [if_pos ⟨rfl, rfl⟩] at table
  rw [translate_eq, wf.writeTable_pdeOf ordinary present entry, table, present, Bool.true_and]

theorem WellFormed.writeTable_other {v : Word} (other : Ordinary v) (pages : page v ≠ page virt) :
    (m.write (m.tableOf virt) (pageTableIndex virt) entry).translate v = m.translate v := by
  refine translate_congr (wf.writeTable_pdeOf ordinary present entry v) fun otherPresent => ?_
  rw [wf.writeTable_pteOf ordinary present entry, if_neg]
  rintro ⟨tables, indices⟩
  have directories := wf.distinct _ other.index _ ordinary.index otherPresent present tables
  exact pages ((page_eq_iff v virt).mpr ⟨directories, indices⟩)

end WriteTable

/-! ## Putting in a new table -/

section WithTable
variable {virt frame : Word} (wf : m.WellFormed) (ordinary : Ordinary virt)
  (absent : isPresent (m.pdeOf virt) = false) (unused : m.Unused frame) (aligned : Aligned frame)
  (phys flags : Word)

theorem word_withTable (m : Vm) (virt frame phys flags g : Word) (k : Nat) :
    (m.withTable virt frame phys flags).word g k =
      if g = m.kernelTable ∧ k = 1022 then 0#32
      else if g = frame then
        newTable (m.word frame) (pageTableIndex virt) (entryWith 0#32 (entryPresent ||| flags) phys) k
      else if g = m.cr3 ∧ k = pageDirectoryIndex virt then
        entryWith (m.pdeOf virt) (flags ||| entryPresent) frame
      else m.word g k := by
  rw [withTable, word_write, word_setWords]
  split_ifs <;> simp_all [word_write]

include wf unused

theorem WellFormed.withTable_root {v : Word} (k : Nat) :
    (m.withTable v frame phys flags).word m.cr3 k =
      if k = pageDirectoryIndex v then entryWith (m.pdeOf v) (flags ||| entryPresent) frame
      else m.word m.cr3 k := by
  rw [word_withTable, if_neg (fun h => wf.ready.kernelTable_ne h.1.symm), if_neg unused.1.symm]
  simp

theorem WellFormed.withTable_frame {k : Nat} (hk : k < 1024) :
    (m.withTable virt frame phys flags).word frame k =
      if k = pageTableIndex virt then entryWith 0#32 (entryPresent ||| flags) phys else 0#32 := by
  have notKernel : frame ≠ m.kernelTable := (unused.2 768 (by decide) wf.ready.kernel).symm
  rw [word_withTable, if_neg (fun h => notKernel h.1), if_pos rfl, newTable, if_pos hk]

include aligned

include ordinary in
theorem WellFormed.withTable : (m.withTable virt frame phys flags).WellFormed := by
  have attrib : (flags ||| entryPresent).getLsbD 0 = true := by
    rw [BitVec.getLsbD_or, show entryPresent.getLsbD 0 = true from rfl, Bool.or_true]
  have index := ordinary.index
  have root := wf.withTable_root (v := virt) unused phys flags
  have same : (m.withTable virt frame phys flags).cr3 = m.cr3 := rfl
  refine ⟨⟨⟨?_, ?_⟩, ?_, ?_⟩, ?_, wf.pmm⟩
  all_goals rw [same]
  · rw [root, if_neg (by omega), wf.ready.own.present]
  · rw [root, if_neg (by omega), wf.ready.own.frame]
  · rw [root]
    split_ifs
    · exact isPresent_entryWith _ _ _ attrib
    · exact wf.ready.kernel
  · intro d hd
    rw [root]
    split_ifs
    · intro _
      rw [frameOf_entryWith _ _ aligned]
      exact unused.1
    · exact wf.ready.apart d hd
  · intro c hc d hd
    rw [root, root]
    split_ifs with atC atD atD
    · intros
      omega
    · intro _ present frames
      rw [frameOf_entryWith _ _ aligned] at frames
      exact absurd frames.symm (unused.2 d hd present)
    · intro present _ frames
      rw [frameOf_entryWith _ _ aligned] at frames
      exact absurd frames (unused.2 c hc present)
    · exact wf.distinct c hc d hd

include absent in
theorem WellFormed.withTable_translate (physAligned : Aligned phys) {v : Word} (other : Ordinary v) :
    (m.withTable virt frame phys flags).translate v =
      if page v = page virt then phys else m.translate v := by
  have attrib : (flags ||| entryPresent).getLsbD 0 = true := by
    rw [BitVec.getLsbD_or, show entryPresent.getLsbD 0 = true from rfl, Bool.or_true]
  have root := wf.withTable_root (v := virt) unused phys flags
  have directory : (m.withTable virt frame phys flags).pdeOf v = _ := root (pageDirectoryIndex v)
  by_cases tables : pageDirectoryIndex v = pageDirectoryIndex virt
  · -- the new table holds one entry, and nothing was mapped there before
    rw [if_pos tables] at directory
    have table : (m.withTable virt frame phys flags).pteOf v =
        if pageTableIndex v = pageTableIndex virt then entryWith 0#32 (entryPresent ||| flags) phys else 0#32 := by
      rw [pteOf, tableOf, directory, frameOf_entryWith _ _ aligned]
      exact wf.withTable_frame unused phys flags (pageTableIndex_lt v)
    have before : m.translate v = 0#32 := by
      rw [translate_eq, pdeOf, tables, show m.word m.cr3 (pageDirectoryIndex virt) = m.pdeOf virt from rfl,
        absent]
      simp
    rw [translate_eq, directory, table, before, isPresent_entryWith _ _ _ attrib, Bool.true_and]
    have pages : page v = page virt ↔ pageTableIndex v = pageTableIndex virt := by
      rw [page_eq_iff, and_iff_right tables]
    simp only [pages]
    split_ifs with same present
    · exact frameOf_entryWith _ _ physAligned
    · rw [BitVec.or_comm, isPresent_entryWith _ _ _ attrib] at present
      simp at present
    · rfl
    · rfl
  · -- another table: not the new frame, and in the kernel table another slot than the temporary one
    rw [if_neg tables] at directory
    rw [if_neg (fun same => tables ((page_eq_iff v virt).mp same).1)]
    refine translate_congr directory fun present => ?_
    have sameTable : (m.withTable virt frame phys flags).tableOf v = m.tableOf v := by
      rw [tableOf, directory]
      rfl
    have notFrame : m.tableOf v ≠ frame := unused.2 _ other.index present
    have notRoot : m.tableOf v ≠ m.cr3 := wf.ready.apart _ other.index present
    rw [pteOf, sameTable, word_withTable, if_neg, if_neg notFrame, if_neg (fun h => notRoot h.1), pteOf]
    rintro ⟨kernel, slot⟩
    have := wf.distinct _ other.index 768 (by decide) present wf.ready.kernel kernel
    exact other.notTempTable ((page_eq_iff v vmmngrTempTable).mpr ⟨this, slot⟩)

end WithTable

/-! ## One call -/

theorem allocBlock_aligned {p : Pmm} (sound : p.Sound) : Aligned p.allocBlock.1 := by
  by_cases refused : p.allocBlock.1 = 0
  · rw [refused]
    rfl
  · obtain ⟨i, _, addr, _⟩ := (Pmm.allocBlock_spec sound).takes refused
    rw [Aligned, ← BitVec.toNat_inj, BitVec.toNat_and, addr, show (0xfff#32).toNat = 2 ^ 12 - 1 from rfl,
      Nat.and_two_pow_sub_one_eq_mod, pageSize]
    simp

/-- Memory after one call: well formed still, and with one page sent to `frame`. -/
structure Sends (before after : Vm) (virt frame : Word) : Prop where
  wellFormed : after.WellFormed
  translate : ∀ v, Ordinary v → after.translate v = if page v = page virt then frame else before.translate v

theorem translate_page {v w : Word} (same : page v = page w) : m.translate v = m.translate w := by
  obtain ⟨directory, table⟩ := (page_eq_iff v w).mp same
  have sameDirectory : m.pdeOf v = m.pdeOf w := by rw [pdeOf, directory, pdeOf]
  have sameTable : m.pteOf v = m.pteOf w := by rw [pteOf, tableOf, sameDirectory, table, pteOf, tableOf]
  rw [translate_eq, translate_eq, sameDirectory, sameTable]

theorem WellFormed.sends_write {virt : Word} (wf : m.WellFormed) (ordinary : Ordinary virt)
    (present : isPresent (m.pdeOf virt) = true) {entry frame : Word}
    (entryFrame : (if isPresent entry then frameOf entry else 0#32) = frame) :
    m.Sends (m.write (m.tableOf virt) (pageTableIndex virt) entry) virt frame := by
  refine ⟨wf.writeTable ordinary present entry, fun v other => ?_⟩
  by_cases same : page v = page virt
  · rw [if_pos same, translate_page same, wf.writeTable_translate ordinary present, entryFrame]
  · rw [if_neg same, wf.writeTable_other ordinary present entry other same]

/-- The frame that `pmmngr_alloc_block` returns is in no use as a table. -/
def AllocUnused (m : Vm) : Prop := m.pmm.allocBlock.1 ≠ 0#32 → m.Unused m.pmm.allocBlock.1

theorem WellFormed.map (wf : m.WellFormed) {phys virt : Word} (physAligned : Aligned phys)
    (ordinary : Ordinary virt) (fresh : m.AllocUnused) (flags : Word) :
    (∃ after, m.vmmngrMap 0#32 phys virt flags = some (.success, after) ∧ m.Sends after virt phys) ∨
      m.vmmngrMap 0#32 phys virt flags = some (.oom, m) := by
  cases present : isPresent (m.pdeOf virt) with
  | true =>
      refine .inl ⟨_, wf.ready.map_present ordinary.index present phys flags, ?_⟩
      apply wf.sends_write ordinary present
      rw [isPresent_entryWith, if_pos rfl, frameOf_entryWith _ _ physAligned]
      rw [BitVec.getLsbD_or, show entryPresent.getLsbD 0 = true from rfl, Bool.true_or]
  | false =>
      have spec := Pmm.allocBlock_spec wf.pmm
      by_cases refused : m.pmm.allocBlock.1 = 0#32
      · -- block 0 is never free, so a zero frame means that the allocator was left as it was
        right
        have same : m.pmm.allocBlock = (0#32, m.pmm) := Prod.ext refused (spec.keeps refused)
        exact wf.ready.map_oom present same phys flags
      · left
        have unused := fresh refused
        have aligned := allocBlock_aligned wf.pmm
        have notKernel : m.pmm.allocBlock.1 ≠ m.kernelTable :=
          (unused.2 768 (by decide) wf.ready.kernel).symm
        have allocated : (m.withPmm m.pmm.allocBlock.2).WellFormed :=
          ⟨wf.ready.congr rfl rfl, wf.distinct, spec.sound⟩
        refine ⟨_, wf.ready.map_absent ordinary.index present rfl refused aligned unused.1 notKernel phys flags,
          allocated.withTable ordinary unused aligned phys flags, fun v other => ?_⟩
        exact allocated.withTable_translate present unused aligned phys flags physAligned other

theorem WellFormed.unmap (wf : m.WellFormed) {virt : Word} (ordinary : Ordinary virt) :
    ∃ after, m.vmmngrUnmap 0#32 virt = some after ∧ m.Sends after virt 0#32 := by
  refine ⟨_, wf.ready.unmap ordinary.index, ?_⟩
  split_ifs with mapped
  · rw [Bool.and_eq_true] at mapped
    exact wf.sends_write ordinary mapped.1 rfl
  · refine ⟨wf, fun v other => ?_⟩
    split_ifs with same
    · rw [translate_page same, translate_eq, if_neg mapped]
    · rfl

end Vm

/-! ## Runs -/

inductive MapEvent where
  | mapped (page : Nat) (frame : Word)
  | unmapped (page : Nat)

/-- The frame of the last map of `page` that no unmap follows, the latest event first; `before` is
what the directory held when the history began. -/
def frameIn (page : Nat) (before : Word) : List MapEvent → Word
  | [] => before
  | .mapped p frame :: earlier => if page = p then frame else frameIn page before earlier
  | .unmapped p :: earlier => if page = p then 0#32 else frameIn page before earlier

inductive MapCall where
  | map (phys virt flags : Word)
  | unmap (virt : Word)

structure MapRun where
  vm : Vm
  history : List MapEvent

def MapRun.exec (s : MapRun) : MapCall → Option MapRun
  | .map phys virt flags => (s.vm.vmmngrMap 0#32 phys virt flags).map fun
      | (.success, vm) => ⟨vm, .mapped (page virt) phys :: s.history⟩
      | (.oom, vm) => ⟨vm, s.history⟩
  | .unmap virt => (s.vm.vmmngrUnmap 0#32 virt).map fun vm => ⟨vm, .unmapped (page virt) :: s.history⟩

def MapCall.Legal (s : MapRun) : MapCall → Prop
  | .map phys virt _ => Aligned phys ∧ Ordinary virt ∧ s.vm.AllocUnused
  | .unmap virt => Ordinary virt

def activeTables : Machine MapRun MapCall where
  Legal := MapCall.Legal
  step := MapRun.exec

structure MapRun.Refines (start : Vm) (s : MapRun) : Prop where
  wellFormed : s.vm.WellFormed
  translate : ∀ v, Ordinary v → s.vm.translate v = frameIn (page v) (start.translate v) s.history

theorem MapRun.Refines.sends {start after : Vm} {s : MapRun} (refines : s.Refines start) {virt frame : Word}
    (sends : s.vm.Sends after virt frame) {event : MapEvent}
    (records : ∀ p before, frameIn p before (event :: s.history) =
      if p = page virt then frame else frameIn p before s.history) :
    (MapRun.mk after (event :: s.history)).Refines start := by
  refine ⟨sends.wellFormed, fun v ordinary => ?_⟩
  rw [sends.translate v ordinary, records, refines.translate v ordinary]

theorem MapRun.Refines.exec {start : Vm} {s t : MapRun} (refines : s.Refines start) {call : MapCall}
    (legal : call.Legal s) (step : s.exec call = some t) : t.Refines start := by
  cases call with
  | map phys virt flags =>
      obtain ⟨aligned, ordinary, fresh⟩ := legal
      rcases refines.wellFormed.map aligned ordinary fresh flags with ⟨after, done, sends⟩ | full
      · rw [MapRun.exec, done] at step
        cases step
        exact refines.sends sends fun _ _ => rfl
      · rw [MapRun.exec, full] at step
        cases step
        exact refines
  | unmap virt =>
      obtain ⟨after, done, sends⟩ := refines.wellFormed.unmap legal
      rw [MapRun.exec, done] at step
      cases step
      exact refines.sends sends fun _ _ => rfl

theorem refines_of_reaches {start : Vm} (wf : start.WellFormed) {s : MapRun}
    (run : activeTables.Reaches ⟨start, []⟩ s) : s.Refines start := by
  refine run.invariant (I := MapRun.Refines start) ?_ ⟨wf, fun _ _ => rfl⟩
  intro s call t refines legal step
  exact refines.exec legal step

/-- Over every run of maps and unmaps on the active directory, no call faults, the translation is
the last map of the page that no unmap follows, every other page keeps its translation, and a map
that runs out of memory changes nothing. -/
theorem active_tables_are_page_map (start : Vm) (wf : start.WellFormed) (s : MapRun)
    (run : activeTables.Reaches ⟨start, []⟩ s) :
    (∀ v, Ordinary v → s.vm.vmmngrToPhysicalAddr 0#32 v =
      some (frameIn (page v) (start.translate v) s.history, s.vm)) ∧
    (∀ call : MapCall, call.Legal s → ∃ t, s.exec call = some t) ∧
    (∀ phys virt flags, Aligned phys → Ordinary virt → s.vm.AllocUnused →
      ∀ err vm, s.vm.vmmngrMap 0#32 phys virt flags = some (err, vm) →
        (err = .oom → vm = s.vm) ∧ ∀ v, Ordinary v → page v ≠ page virt →
          (vm.vmmngrToPhysicalAddr 0#32 v).map Prod.fst = (s.vm.vmmngrToPhysicalAddr 0#32 v).map Prod.fst) ∧
    (∀ virt, Ordinary virt → ∀ vm, s.vm.vmmngrUnmap 0#32 virt = some vm → ∀ v, Ordinary v →
      page v ≠ page virt →
        (vm.vmmngrToPhysicalAddr 0#32 v).map Prod.fst = (s.vm.vmmngrToPhysicalAddr 0#32 v).map Prod.fst) := by
  have refines := refines_of_reaches wf run
  have wellFormed := refines.wellFormed
  have sends_other : ∀ {after : Vm} {virt frame : Word}, s.vm.Sends after virt frame →
      ∀ v, Ordinary v → page v ≠ page virt →
        (after.vmmngrToPhysicalAddr 0#32 v).map Prod.fst = (s.vm.vmmngrToPhysicalAddr 0#32 v).map Prod.fst := by
    intro after virt frame sends v ordinary other
    rw [sends.wellFormed.ready.own.toPhysicalAddr, wellFormed.ready.own.toPhysicalAddr,
      sends.translate v ordinary, if_neg other]
    rfl
  refine ⟨fun v ordinary => ?_, fun call legal => ?_, ?_, ?_⟩
  · rw [wellFormed.ready.own.toPhysicalAddr, refines.translate v ordinary]
  · cases call with
    | map phys virt flags =>
        obtain ⟨aligned, ordinary, fresh⟩ := legal
        rcases wellFormed.map aligned ordinary fresh flags with ⟨after, done, _⟩ | full
        · simp [MapRun.exec, done]
        · simp [MapRun.exec, full]
    | unmap virt =>
        obtain ⟨after, done, _⟩ := wellFormed.unmap legal
        simp [MapRun.exec, done]
  · intro phys virt flags aligned ordinary fresh err vm step
    rcases wellFormed.map aligned ordinary fresh flags with ⟨after, done, sends⟩ | full
    · rw [done] at step
      cases step
      exact ⟨by rintro ⟨⟩, sends_other sends⟩
    · rw [full] at step
      cases step
      exact ⟨fun _ => rfl, fun _ _ _ => rfl⟩
  · intro virt ordinary vm step
    obtain ⟨after, done, sends⟩ := wellFormed.unmap ordinary
    rw [done] at step
    cases step
    exact sends_other sends

-- a directory at 0x1000 that holds itself and an empty kernel table at 0x2000
def bareDirectory : Vm where
  word frame idx :=
    if frame = 0x1000#32 then if idx = 1023 then 0x1003#32 else if idx = 768 then 0x2003#32 else 0#32
    else 0#32
  cr3 := 0x1000#32
  pmm := Pmm.boot 0#32 []

theorem bareDirectory_present {d : Nat} (below : d < 1023)
    (present : isPresent (bareDirectory.word bareDirectory.cr3 d) = true) : d = 768 := by
  by_contra other
  have : d ≠ 1023 := by omega
  simp [bareDirectory, other, this] at present
  cases present

theorem bareDirectory_wellFormed : bareDirectory.WellFormed := by
  refine ⟨⟨⟨by decide, by decide⟩, by decide, fun d below present => ?_⟩, ?_, Pmm.boot_sound 0#32 [] (by decide)⟩
  · rw [bareDirectory_present below present]
    decide
  · intro c hc d hd first second _
    rw [bareDirectory_present hc first, bareDirectory_present hd second]

theorem active_tables_are_page_map_kernel_page :
    ∃ s, activeTables.Reaches ⟨bareDirectory, []⟩ s ∧
      s.vm.vmmngrToPhysicalAddr 0#32 0xc0005123#32 = some (0x7000#32, s.vm) := by
  have ordinary : Ordinary 0xc0005000#32 := ⟨by decide, by decide, by decide⟩
  let call := MapCall.map 0x7000#32 0xc0005000#32 2#32
  have legal : call.Legal ⟨bareDirectory, []⟩ := ⟨rfl, ordinary, fun full => absurd rfl full⟩
  obtain ⟨after, mapped⟩ : ∃ after, bareDirectory.vmmngrMap 0#32 0x7000#32 0xc0005000#32 2#32 =
      some (.success, after) :=
    ⟨_, bareDirectory_wellFormed.ready.map_present ordinary.index (by decide) 0x7000#32 2#32⟩
  have step : (MapRun.mk bareDirectory []).exec call =
      some ⟨after, [.mapped (page 0xc0005000#32) 0x7000#32]⟩ := by
    simp only [call, MapRun.exec, mapped, Option.map_some]
  have run := (Machine.Reaches.refl (M := activeTables) ⟨bareDirectory, []⟩).snoc (i := call) legal step
  exact ⟨_, run, (active_tables_are_page_map bareDirectory bareDirectory_wellFormed _ run).1 0xc0005123#32
    ⟨by decide, by decide, by decide⟩⟩

end Kerosene.Mem
