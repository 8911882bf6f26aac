import Kerosene.Mem.PageMap

/-!
# The kernel half of several page directories

Directories made by `vmmngr_alloc_page_directory` start as copies of the kernel directory and then
take over missing kernel entries from it, one page fault at a time.
-/

namespace Kerosene.Mem
open Lib

structure Spaces where
  vm : Vm
  kernelPd : Word
  dirs : List Word

/-- `[KERNEL_START, 0xffc00000)`: the kernel half without the recursive window. -/
structure KernelAddr (virt : Word) : Prop where
  low : kernelStart ≤ virt
  high : virt < 0xffc00000#32

theorem KernelAddr.index {virt : Word} (addr : KernelAddr virt) :
    768 ≤ pageDirectoryIndex virt ∧ pageDirectoryIndex virt < 1023 := by
  have low := BitVec.le_def.mp addr.low
  have high := BitVec.lt_def.mp addr.high
  rw [pageDirectoryIndex_eq]
  simp only [kernelStart, BitVec.toNat_ofNat] at low high
  omega

inductive SpaceCall where
  | switch (dir : Word)
  | newDirectory
  | map (phys virt flags : Word)
  | unmap (virt : Word)
  | fault (addr : Word)

namespace Spaces

def exec (s : Spaces) : SpaceCall → Option Spaces
  | .switch dir => some { s with vm := s.vm.vmmngrSwitchPageDirectory dir }
  | .newDirectory => (s.vm.vmmngrAllocPageDirectory s.kernelPd).map fun
      | (pd, vm) => { s with vm := vm, dirs := if pd = 0#32 then s.dirs else pd :: s.dirs }
  | .map phys virt flags => (s.vm.vmmngrMap 0#32 phys virt flags).map fun | (_, vm) => { s with vm := vm }
  | .unmap virt => (s.vm.vmmngrUnmap 0#32 virt).map fun vm => { s with vm := vm }
  -- an unresolved fault is a panic
  | .fault addr => (s.vm.pageFaultHandler s.kernelPd addr).bind fun
      | (true, vm) => some { s with vm := vm }
      | (false, _) => none

def Legal (s : Spaces) : SpaceCall → Prop
  | .switch dir => dir ∈ s.dirs
  | .map _ virt _ | .unmap virt => KernelAddr virt
  | .newDirectory | .fault _ => True

-- a new page table is made only in the kernel directory
def TablesFromKernel (s : Spaces) : SpaceCall → Prop
  | .map _ virt _ => s.vm.cr3 = s.kernelPd ∨ isPresent (s.vm.pdeOf virt) = true ∨ ∀ i, ¬ s.vm.pmm.FreeRun i 1
  | _ => True

def spaces : Machine Spaces SpaceCall where
  Legal := Legal
  step := exec

def kernelTableSpaces : Machine Spaces SpaceCall where
  Legal s call := s.Legal call ∧ s.TablesFromKernel call
  step := exec

/-- Mapped to `frame` under `dir`, at once or after the fault that copies the directory entry. -/
def MappedLazily (s : Spaces) (dir virt frame : Word) : Prop :=
  s.vm.walk dir virt = some frame ∨
    ∃ vm, (s.vm.vmmngrSwitchPageDirectory dir).pageFaultHandler s.kernelPd virt = some (true, vm) ∧
      vm.walk dir virt = some frame

structure SharesKernelHalf (s : Spaces) : Prop where
  tables : ∀ virt, KernelAddr virt → ∀ d ∈ s.dirs, ∀ e ∈ s.dirs,
    isPresent (s.vm.word d (pageDirectoryIndex virt)) = true →
    isPresent (s.vm.word e (pageDirectoryIndex virt)) = true →
    frameOf (s.vm.word d (pageDirectoryIndex virt)) = frameOf (s.vm.word e (pageDirectoryIndex virt))
  mapped : ∀ virt, KernelAddr virt → ∀ d ∈ s.dirs, ∀ e ∈ s.dirs, ∀ frame,
    s.vm.walk d virt = some frame → s.MappedLazily e virt frame

def blockOf (frame : Word) : Nat := frame.toNat / pageSize

/-- Every directory takes its kernel tables from the kernel directory, and all directories and
tables are frames in use. -/
structure Coherent (s : Spaces) : Prop where
  kernel : s.kernelPd ∈ s.dirs
  active : s.vm.cr3 ∈ s.dirs
  own : ∀ d ∈ s.dirs, s.vm.Recursive d
  slot : ∀ d ∈ s.dirs, isPresent (s.vm.word d 768) = true
  apart : ∀ d ∈ s.dirs, ∀ k < 1023, isPresent (s.vm.word d k) = true → frameOf (s.vm.word d k) ∉ s.dirs
  shared : ∀ d ∈ s.dirs, ∀ k, 768 ≤ k → k < 1023 → isPresent (s.vm.word d k) = true →
    isPresent (s.vm.word s.kernelPd k) = true ∧ frameOf (s.vm.word s.kernelPd k) = frameOf (s.vm.word d k)
  pmm : s.vm.pmm.Sound
  dirsUsed : ∀ d ∈ s.dirs, s.vm.pmm.testBit (blockOf d) = true
  tablesUsed : ∀ d ∈ s.dirs, ∀ k < 1023, isPresent (s.vm.word d k) = true →
    s.vm.pmm.testBit (blockOf (frameOf (s.vm.word d k))) = true

variable {s : Spaces}

theorem Coherent.ready (coherent : s.Coherent) : s.vm.Ready :=
  ⟨coherent.own _ coherent.active, coherent.slot _ coherent.active, fun d below present same => by
    have apart := coherent.apart _ coherent.active d below present
    rw [same] at apart
    exact apart coherent.active⟩

theorem Coherent.kernelTable_notMem (coherent : s.Coherent) : s.vm.kernelTable ∉ s.dirs :=
  coherent.apart _ coherent.active 768 (by decide) (coherent.slot _ coherent.active)

/-! ## What coherence gives -/

theorem Coherent.tables_eq (coherent : s.Coherent) {virt d e : Word} (addr : KernelAddr virt)
    (first : d ∈ s.dirs) (second : e ∈ s.dirs) (left : isPresent (s.vm.word d (pageDirectoryIndex virt)) = true)
    (right : isPresent (s.vm.word e (pageDirectoryIndex virt)) = true) :
    frameOf (s.vm.word d (pageDirectoryIndex virt)) = frameOf (s.vm.word e (pageDirectoryIndex virt)) := by
  obtain ⟨low, high⟩ := addr.index
  rw [← (coherent.shared d first _ low high left).2, (coherent.shared e second _ low high right).2]

theorem walk_some {m : Vm} {root virt frame : Word} (mapped : m.walk root virt = some frame) :
    isPresent (m.word root (pageDirectoryIndex virt)) = true ∧
      isPresent (m.word (frameOf (m.word root (pageDirectoryIndex virt))) (pageTableIndex virt)) = true ∧
      frameOf (m.word (frameOf (m.word root (pageDirectoryIndex virt))) (pageTableIndex virt)) = frame := by
  simp only [Vm.walk] at mapped
  split_ifs at mapped with directory table
  exact ⟨directory, table, Option.some.inj mapped⟩

theorem walk_of_table {m : Vm} {root virt table : Word}
    (directory : isPresent (m.word root (pageDirectoryIndex virt)) = true)
    (same : frameOf (m.word root (pageDirectoryIndex virt)) = table)
    (present : isPresent (m.word table (pageTableIndex virt)) = true) :
    m.walk root virt = some (frameOf (m.word table (pageTableIndex virt))) := by
  simp [Vm.walk, directory, same, present]

theorem walk_copied {m : Vm} {root virt pde : Word} (notRoot : frameOf pde ≠ root)
    (present : isPresent pde = true)
    (table : isPresent (m.word (frameOf pde) (pageTableIndex virt)) = true) :
    (m.write root (pageDirectoryIndex virt) pde).walk root virt =
      some (frameOf (m.word (frameOf pde) (pageTableIndex virt))) := by
  simp [Vm.walk, Vm.word_write_self, Vm.word_write_frame notRoot, present, table]

theorem Coherent.mappedLazily (coherent : s.Coherent) {virt d e frame : Word} (addr : KernelAddr virt)
    (first : d ∈ s.dirs) (second : e ∈ s.dirs) (mapped : s.vm.walk d virt = some frame) :
    s.MappedLazily e virt frame := by
  obtain ⟨low, high⟩ := addr.index
  obtain ⟨directory, table, rfl⟩ := walk_some mapped
  cases present : isPresent (s.vm.word e (pageDirectoryIndex virt)) with
  | true =>
      have same := coherent.tables_eq addr second first present directory
      exact .inl (walk_of_table present same table)
  | false =>
      obtain ⟨kernel, same⟩ := coherent.shared d first _ low high directory
      have own := coherent.own e second
      have fault := Vm.Recursive.fault (m := s.vm.vmmngrSwitchPageDirectory e) ⟨own.present, own.frame⟩
        s.kernelPd virt
      rw [if_pos ⟨addr.low, present, kernel⟩] at fault
      have notDirectory : frameOf (s.vm.word s.kernelPd (pageDirectoryIndex virt)) ≠ e := by
        intro isDirectory
        exact coherent.apart _ coherent.kernel _ high kernel (isDirectory ▸ second)
      rw [← same] at table ⊢
      exact .inr ⟨_, fault, walk_copied (m := s.vm.vmmngrSwitchPageDirectory e) notDirectory kernel table⟩

theorem Coherent.shares (coherent : s.Coherent) : s.SharesKernelHalf :=
  ⟨fun _ addr _ first _ second => coherent.tables_eq addr first second,
    fun _ addr _ first _ second _ => coherent.mappedLazily addr first second⟩

/-! ## Every call keeps it -/

theorem allocBlock_ne {p : Pmm} (sound : p.Sound) (found : p.allocBlock.1 ≠ 0#32) {frame : Word}
    (used : p.testBit (blockOf frame) = true) : p.allocBlock.1 ≠ frame := by
  rintro rfl
  obtain ⟨i, _, addr, run, _⟩ := (Pmm.allocBlock_spec sound).takes found
  have block : blockOf p.allocBlock.1 = i := by
    rw [blockOf, addr]
    exact Nat.mul_div_cancel _ (by decide)
  have free := run.2 0 (by decide)
  rw [block] at used
  rw [Nat.add_zero, used] at free
  cases free

theorem allocBlock_used {p : Pmm} (sound : p.Sound) (found : p.allocBlock.1 ≠ 0#32) :
    p.allocBlock.2.testBit (blockOf p.allocBlock.1) = true ∧
      ∀ b, p.testBit b = true → p.allocBlock.2.testBit b = true := by
  obtain ⟨i, _, addr, _, bits⟩ := (Pmm.allocBlock_spec sound).takes found
  have block : blockOf p.allocBlock.1 = i := by
    rw [blockOf, addr]
    exact Nat.mul_div_cancel _ (by decide)
  exact ⟨by simp [bits, block], fun b used => by simp [bits, used]⟩

theorem Coherent.congr (coherent : s.Coherent) {vm : Vm} (active : vm.cr3 ∈ s.dirs) (pmm : vm.pmm = s.vm.pmm)
    (same : ∀ d ∈ s.dirs, vm.word d = s.vm.word d) : Coherent { s with vm := vm } where
  kernel := coherent.kernel
  active := active
  own d member := ⟨by rw [same d member, (coherent.own d member).present],
    by rw [same d member, (coherent.own d member).frame]⟩
  slot d member := by rw [same d member, coherent.slot d member]
  apart d member := by rw [same d member]; exact coherent.apart d member
  shared d member := by rw [same d member, same _ coherent.kernel]; exact coherent.shared d member
  pmm := by rw [pmm]; exact coherent.pmm
  dirsUsed := by rw [pmm]; exact coherent.dirsUsed
  tablesUsed d member := by rw [same d member, pmm]; exact coherent.tablesUsed d member

theorem Coherent.writeTable (coherent : s.Coherent) {virt : Word} (below : pageDirectoryIndex virt < 1023)
    (present : isPresent (s.vm.pdeOf virt) = true) (entry : Word) :
    Coherent { s with vm := s.vm.write (s.vm.tableOf virt) (pageTableIndex virt) entry } := by
  refine coherent.congr coherent.active rfl fun d member => Vm.word_write_frame ?_ _ _ _
  rintro rfl
  exact coherent.apart _ coherent.active _ below present member

theorem Coherent.setEntry (coherent : s.Coherent) {vm : Vm} {idx : Nat} {entry : Word}
    (root : vm.cr3 = s.vm.cr3) (below : idx < 1023)
    (words : ∀ d ∈ s.dirs, ∀ k, vm.word d k = if d = s.vm.cr3 ∧ k = idx then entry else s.vm.word d k)
    (present : isPresent entry = true) (apart : frameOf entry ∉ s.dirs) (pmm : vm.pmm.Sound)
    (kept : ∀ b, s.vm.pmm.testBit b = true → vm.pmm.testBit b = true)
    (used : vm.pmm.testBit (blockOf (frameOf entry)) = true)
    (shared : 768 ≤ idx → ∀ d ∈ s.dirs, isPresent (vm.word d idx) = true →
      isPresent (vm.word s.kernelPd idx) = true ∧ frameOf (vm.word s.kernelPd idx) = frameOf (vm.word d idx)) :
    Coherent { s with vm := vm } where
  kernel := coherent.kernel
  active := by rw [root]; exact coherent.active
  own d member := by
    have last : vm.word d 1023 = s.vm.word d 1023 := by
      rw [words d member, if_neg (by omega)]
    exact ⟨by rw [last, (coherent.own d member).present], by rw [last, (coherent.own d member).frame]⟩
  slot d member := by
    rw [words d member]
    split_ifs
    · exact present
    · exact coherent.slot d member
  apart d member k hk := by
    rw [words d member]
    split_ifs
    · exact fun _ => apart
    · exact coherent.apart d member k hk
  shared d member k low high := by
    by_cases here : k = idx
    · subst here
      exact shared low d member
    · rw [words d member, words _ coherent.kernel, if_neg (fun h => here h.2), if_neg (fun h => here h.2)]
      exact coherent.shared d member k low high
  pmm := pmm
  dirsUsed d member := kept _ (coherent.dirsUsed d member)
  tablesUsed d member k hk := by
    rw [words d member]
    split_ifs
    · exact fun _ => used
    · exact fun h => kept _ (coherent.tablesUsed d member k hk h)

theorem Coherent.alloc_notMem (coherent : s.Coherent) (found : s.vm.pmm.allocBlock.1 ≠ 0#32) :
    s.vm.pmm.allocBlock.1 ∉ s.dirs := fun member =>
  allocBlock_ne coherent.pmm found (coherent.dirsUsed _ member) rfl

theorem Coherent.alloc_notTable (coherent : s.Coherent) (found : s.vm.pmm.allocBlock.1 ≠ 0#32) :
    s.vm.pmm.allocBlock.1 ≠ s.vm.kernelTable :=
  allocBlock_ne coherent.pmm found
    (coherent.tablesUsed _ coherent.active 768 (by decide) (coherent.slot _ coherent.active))

theorem Coherent.map_absent (coherent : s.Coherent) {virt : Word} (below : pageDirectoryIndex virt < 1023)
    (absent : isPresent (s.vm.pdeOf virt) = false) (found : s.vm.pmm.allocBlock.1 ≠ 0#32) (phys flags : Word) :
    s.exec (.map phys virt flags) = some { s with
      vm := (s.vm.withPmm s.vm.pmm.allocBlock.2).withTable virt s.vm.pmm.allocBlock.1 phys flags } := by
  have notRoot : s.vm.pmm.allocBlock.1 ≠ s.vm.cr3 := fun same =>
    coherent.alloc_notMem found (same ▸ coherent.active)
  have mapped := coherent.ready.map_absent below absent (Prod.eta s.vm.pmm.allocBlock).symm found
    (Vm.allocBlock_aligned coherent.pmm) notRoot (coherent.alloc_notTable found) phys flags
  simp only [exec, mapped, Option.map_some]

theorem Coherent.word_withTable (coherent : s.Coherent) (found : s.vm.pmm.allocBlock.1 ≠ 0#32)
    (virt phys flags : Word) {d : Word} (member : d ∈ s.dirs) (k : Nat) :
    ((s.vm.withPmm s.vm.pmm.allocBlock.2).withTable virt s.vm.pmm.allocBlock.1 phys flags).word d k =
      if d = s.vm.cr3 ∧ k = pageDirectoryIndex virt then
        entryWith (s.vm.pdeOf virt) (flags ||| entryPresent) s.vm.pmm.allocBlock.1
      else s.vm.word d k := by
  have notTable : d ≠ s.vm.kernelTable := fun same => coherent.kernelTable_notMem (same ▸ member)
  have notNew : d ≠ s.vm.pmm.allocBlock.1 := fun same => coherent.alloc_notMem found (same ▸ member)
  rw [Vm.word_withTable, if_neg (fun h => notTable h.1), if_neg notNew]
  rfl

theorem Coherent.withTable (coherent : s.Coherent) (kernelActive : s.vm.cr3 = s.kernelPd) {virt : Word}
    (below : pageDirectoryIndex virt < 1023) (absent : isPresent (s.vm.pdeOf virt) = false)
    (found : s.vm.pmm.allocBlock.1 ≠ 0#32) (phys flags : Word) :
    Coherent { s with
      vm := (s.vm.withPmm s.vm.pmm.allocBlock.2).withTable virt s.vm.pmm.allocBlock.1 phys flags } := by
  have frame := frameOf_entryWith (s.vm.pdeOf virt) (flags ||| entryPresent)
    (Vm.allocBlock_aligned coherent.pmm)
  have words := fun d member => coherent.word_withTable found virt phys flags (d := d) member
  obtain ⟨used, kept⟩ := allocBlock_used coherent.pmm found
  refine coherent.setEntry rfl below words ?_ ?_ (Pmm.allocBlock_spec coherent.pmm).sound kept ?_ ?_
  · apply isPresent_entryWith
    rw [BitVec.getLsbD_or, show entryPresent.getLsbD 0 = true from rfl, Bool.or_true]
  · rw [frame]
    exact coherent.alloc_notMem found
  · rw [frame]
    exact used
  · -- no other directory had this entry, since the kernel directory did not
    intro low d member present
    by_cases isKernel : d = s.kernelPd
    · subst isKernel
      exact ⟨present, rfl⟩
    · rw [words d member, if_neg (fun h => isKernel (h.1.trans kernelActive))] at present
      have kernel := (coherent.shared d member _ low below present).1
      rw [← kernelActive] at kernel
      rw [Vm.pdeOf, kernel] at absent
      cases absent

theorem Coherent.newDirectory (coherent : s.Coherent) (found : s.vm.pmm.allocBlock.1 ≠ 0#32) :
    s.exec .newDirectory = some { s with
      vm := (s.vm.withPmm s.vm.pmm.allocBlock.2).withDirectory s.kernelPd s.vm.pmm.allocBlock.1,
      dirs := s.vm.pmm.allocBlock.1 :: s.dirs } := by
  have notMem := coherent.alloc_notMem found
  have notRoot : s.vm.pmm.allocBlock.1 ≠ s.vm.cr3 := fun same => notMem (same ▸ coherent.active)
  have notKernel : s.kernelPd ≠ s.vm.pmm.allocBlock.1 := fun same => notMem (same ▸ coherent.kernel)
  have kernelNotTable : s.kernelPd ≠ s.vm.kernelTable := fun same =>
    coherent.kernelTable_notMem (same ▸ coherent.kernel)
  have made := coherent.ready.allocPageDirectory (Prod.eta s.vm.pmm.allocBlock).symm found
    (Vm.allocBlock_aligned coherent.pmm) notRoot (coherent.alloc_notTable found) notKernel kernelNotTable
  simp only [exec, made, Option.map_some, if_neg found]

theorem Coherent.withDirectory (coherent : s.Coherent) (found : s.vm.pmm.allocBlock.1 ≠ 0#32) :
    Coherent { s with
      vm := (s.vm.withPmm s.vm.pmm.allocBlock.2).withDirectory s.kernelPd s.vm.pmm.allocBlock.1,
      dirs := s.vm.pmm.allocBlock.1 :: s.dirs } := by
  set pd := s.vm.pmm.allocBlock.1 with pdDef
  set vm := (s.vm.withPmm s.vm.pmm.allocBlock.2).withDirectory s.kernelPd pd with vmDef
  have notMem : pd ∉ s.dirs := coherent.alloc_notMem found
  have notTable : pd ≠ s.vm.kernelTable := coherent.alloc_notTable found
  obtain ⟨used, kept⟩ := allocBlock_used coherent.pmm found
  -- old directories are as before, and the new one is the kernel directory but for its last entry
  have old : ∀ d ∈ s.dirs, vm.word d = s.vm.word d := by
    intro d member
    have dNotTable : d ≠ s.vm.kernelTable := fun same => coherent.kernelTable_notMem (same ▸ member)
    have dNotNew : d ≠ pd := fun same => notMem (same ▸ member)
    rw [vmDef, Vm.withDirectory, Vm.kernelTable_withPmm, Vm.word_write_frame dNotTable, Vm.word_setWords, if_neg dNotNew]
    rfl
  have new : vm.word pd = Vm.newDirectory (s.vm.word s.kernelPd) (s.vm.word pd) pd := by
    rw [vmDef, Vm.withDirectory, Vm.kernelTable_withPmm, Vm.word_write_frame notTable, Vm.word_setWords, if_pos rfl]
    rfl
  have newWord : ∀ k < 1023, vm.word pd k = s.vm.word s.kernelPd k := by
    intro k hk
    rw [new, Vm.newDirectory, if_neg (by omega), if_pos (by omega)]
  have tables : ∀ d ∈ s.dirs, ∀ k < 1023, isPresent (s.vm.word d k) = true →
      frameOf (s.vm.word d k) ∉ pd :: s.dirs := by
    intro d member k hk present listed
    rcases List.mem_cons.mp listed with isNew | isOld
    · exact allocBlock_ne coherent.pmm found (coherent.tablesUsed d member k hk present) isNew.symm
    · exact coherent.apart d member k hk present isOld
  refine ⟨List.mem_cons_of_mem _ coherent.kernel, List.mem_cons_of_mem _ coherent.active, ?_, ?_, ?_, ?_,
    (Pmm.allocBlock_spec coherent.pmm).sound, ?_, ?_⟩
  all_goals
    intro d listed
    rcases List.mem_cons.mp listed with rfl | member
  · have last : vm.word pd 1023 = entryWith (s.vm.word s.kernelPd 1023) (entryPresent ||| entryWritable) pd := by
      rw [new, Vm.newDirectory, if_pos rfl]
    refine ⟨?_, ?_⟩
    · rw [last]
      exact isPresent_entryWith _ _ _ (by decide)
    · rw [last]
      exact frameOf_entryWith _ _ (Vm.allocBlock_aligned coherent.pmm)
  · exact ⟨by rw [old d member, (coherent.own d member).present],
      by rw [old d member, (coherent.own d member).frame]⟩
  · rw [newWord 768 (by decide)]
    exact coherent.slot _ coherent.kernel
  · rw [old d member]
    exact coherent.slot d member
  · intro k hk
    rw [newWord k hk]
    exact tables _ coherent.kernel k hk
  · rw [old d member]
    exact tables d member
  · intro k low high present
    rw [newWord k high] at present ⊢
    rw [old _ coherent.kernel]
    exact ⟨present, rfl⟩
  · rw [old d member, old _ coherent.kernel]
    exact coherent.shared d member
  · exact used
  · exact kept _ (coherent.dirsUsed d member)
  · intro k hk
    rw [newWord k hk]
    exact fun present => kept _ (coherent.tablesUsed _ coherent.kernel k hk present)
  · intro k hk
    rw [old d member]
    exact fun present => kept _ (coherent.tablesUsed d member k hk present)

theorem Coherent.fault (coherent : s.Coherent) {addr : Word} (absent : isPresent (s.vm.pdeOf addr) = false)
    (source : isPresent (s.vm.word s.kernelPd (pageDirectoryIndex addr)) = true) :
    Coherent { s with
      vm := s.vm.write s.vm.cr3 (pageDirectoryIndex addr) (s.vm.word s.kernelPd (pageDirectoryIndex addr)) } := by
  have below : pageDirectoryIndex addr < 1023 := by
    have := pageDirectoryIndex_lt addr
    by_contra last
    have own := (coherent.own _ coherent.active).present
    rw [show (1023 : Nat) = pageDirectoryIndex addr by omega,
      show s.vm.word s.vm.cr3 (pageDirectoryIndex addr) = s.vm.pdeOf addr from rfl, absent] at own
    cases own
  have notKernel : s.kernelPd ≠ s.vm.cr3 := by
    intro same
    rw [same, show s.vm.word s.vm.cr3 (pageDirectoryIndex addr) = s.vm.pdeOf addr from rfl, absent] at source
    cases source
  refine coherent.setEntry rfl below (fun d _ k => Vm.word_write _ _ _ _ d k) source
    (coherent.apart _ coherent.kernel _ below source) coherent.pmm (fun _ used => used)
    (coherent.tablesUsed _ coherent.kernel _ below source) fun low d member present => ?_
  rw [Vm.word_write] at present
  rw [Vm.word_write, Vm.word_write, if_neg (fun h => notKernel h.1)]
  split_ifs at present ⊢ with here
  · exact ⟨source, rfl⟩
  · exact coherent.shared d member _ low below present

theorem Coherent.exec (coherent : s.Coherent) {call : SpaceCall} (legal : s.Legal call)
    (fromKernel : s.TablesFromKernel call) {t : Spaces} (step : s.exec call = some t) : t.Coherent := by
  have spec := Pmm.allocBlock_spec coherent.pmm
  cases call with
  | switch dir =>
      cases step
      exact coherent.congr legal rfl fun _ _ => rfl
  | newDirectory =>
      by_cases refused : s.vm.pmm.allocBlock.1 = 0#32
      · have full : s.vm.pmm.allocBlock = (0#32, s.vm.pmm) := Prod.ext refused (spec.keeps refused)
        simp only [Spaces.exec, Vm.allocPageDirectory_none full, Option.map_some, Option.some.injEq] at step
        subst step
        exact coherent
      · rw [coherent.newDirectory refused] at step
        cases step
        exact coherent.withDirectory refused
  | map phys virt flags =>
      have below := legal.index.2
      cases present : isPresent (s.vm.pdeOf virt) with
      | true =>
          simp only [Spaces.exec, coherent.ready.map_present below present, Option.map_some,
            Option.some.injEq] at step
          subst step
          exact coherent.writeTable below present _
      | false =>
          by_cases refused : s.vm.pmm.allocBlock.1 = 0#32
          · have full : s.vm.pmm.allocBlock = (0#32, s.vm.pmm) := Prod.ext refused (spec.keeps refused)
            simp only [Spaces.exec, coherent.ready.map_oom present full, Option.map_some,
              Option.some.injEq] at step
            subst step
            exact coherent
          · rw [coherent.map_absent below present refused] at step
            cases step
            rcases fromKernel with kernelActive | has | none
            · exact coherent.withTable kernelActive below present refused phys flags
            · rw [present] at has
              cases has
            · exact absurd (spec.refuses.mpr (.inr none)) refused
  | unmap virt =>
      have below := legal.index.2
      simp only [Spaces.exec, coherent.ready.unmap below, Option.map_some, Option.some.injEq] at step
      subst step
      split_ifs with mapped
      · rw [Bool.and_eq_true] at mapped
        exact coherent.writeTable below mapped.1 _
      · exact coherent
  | fault addr =>
      simp only [Spaces.exec, (coherent.own _ coherent.active).fault] at step
      split_ifs at step with copies
      · cases step
        exact coherent.fault copies.2.1 copies.2.2
      · cases step

/-! ## A table made under another directory -/

theorem Coherent.parts (coherent : s.Coherent) {virt : Word} (addr : KernelAddr virt) {phys flags : Word}
    (otherwise : ¬ s.TablesFromKernel (.map phys virt flags)) {t : Spaces}
    (step : s.exec (.map phys virt flags) = some t) : ¬ t.SharesKernelHalf := by
  simp only [TablesFromKernel, not_or, not_forall, not_not, Bool.not_eq_true] at otherwise
  obtain ⟨notKernel, absent, i, room⟩ := otherwise
  have below := addr.index.2
  have spec := Pmm.allocBlock_spec coherent.pmm
  have found : s.vm.pmm.allocBlock.1 ≠ 0#32 := by
    intro refused
    rcases spec.refuses.mp refused with zero | none
    · cases zero
    · exact none i room
  rw [coherent.map_absent below absent found] at step
  cases step
  intro shares
  have words := fun d member => coherent.word_withTable found virt phys flags (d := d) member
  set vm := (s.vm.withPmm s.vm.pmm.allocBlock.2).withTable virt s.vm.pmm.allocBlock.1 phys flags with vmDef
  have attrib : (flags ||| entryPresent).getLsbD 0 = true := by
    rw [BitVec.getLsbD_or, show entryPresent.getLsbD 0 = true from rfl, Bool.or_true]
  have active : vm.word s.vm.cr3 (pageDirectoryIndex virt) =
      entryWith (s.vm.pdeOf virt) (flags ||| entryPresent) s.vm.pmm.allocBlock.1 := by
    rw [words _ coherent.active, if_pos ⟨rfl, rfl⟩]
  have kernel : vm.word s.kernelPd (pageDirectoryIndex virt) =
      s.vm.word s.kernelPd (pageDirectoryIndex virt) := by
    rw [words _ coherent.kernel, if_neg (fun h => notKernel h.1.symm)]
  have present := isPresent_entryWith (s.vm.pdeOf virt) (flags ||| entryPresent) s.vm.pmm.allocBlock.1 attrib
  have frame := frameOf_entryWith (s.vm.pdeOf virt) (flags ||| entryPresent)
    (Vm.allocBlock_aligned coherent.pmm)
  cases known : isPresent (s.vm.word s.kernelPd (pageDirectoryIndex virt)) with
  | true =>
      -- the kernel directory has another table for the address
      have same := shares.tables virt addr _ coherent.active _ coherent.kernel
        (by rw [active]; exact present) (by rw [kernel]; exact known)
      rw [active, kernel, frame] at same
      exact allocBlock_ne coherent.pmm found (coherent.tablesUsed _ coherent.kernel _ below known) same
  | false =>
      -- the kernel directory has none, and a fault under it finds nothing to copy
      have table : isPresent (vm.word s.vm.pmm.allocBlock.1 (pageTableIndex virt)) = true := by
        rw [vmDef, Vm.word_withTable, if_neg (fun h => coherent.alloc_notTable found h.1), if_pos rfl,
          Vm.newTable, if_pos rfl]
        exact isPresent_entryWith _ _ _ (by rwa [BitVec.or_comm])
      have mapped := walk_of_table (m := vm) (by rw [active]; exact present)
        (by rw [active]; exact frame) table
      have own := coherent.own _ coherent.kernel
      have last : vm.word s.kernelPd 1023 = s.vm.word s.kernelPd 1023 := by
        rw [words _ coherent.kernel, if_neg (fun h => notKernel h.1.symm)]
      have kernelOwn : (vm.vmmngrSwitchPageDirectory s.kernelPd).Recursive s.kernelPd :=
        ⟨(congrArg isPresent last).trans own.present, (congrArg frameOf last).trans own.frame⟩
      rcases shares.mapped virt addr _ coherent.active _ coherent.kernel _ mapped with walked | ⟨_, copied, _⟩
      · have directory := (walk_some walked).1
        rw [kernel, known] at directory
        cases directory
      · rw [Vm.Recursive.fault (m := vm.vmmngrSwitchPageDirectory s.kernelPd) kernelOwn, if_neg] at copied
        · cases copied
        · rintro ⟨_, _, source⟩
          have : isPresent (vm.word s.kernelPd (pageDirectoryIndex virt)) = true := source
          rw [kernel, known] at this
          cases this

/-! ## Runs -/

/-- The active directory is the kernel's, and it and its tables are frames in use. -/
structure Booted (vm : Vm) : Prop where
  ready : vm.Ready
  pmm : vm.pmm.Sound
  rootUsed : vm.pmm.testBit (blockOf vm.cr3) = true
  tablesUsed : ∀ k < 1023, isPresent (vm.word vm.cr3 k) = true →
    vm.pmm.testBit (blockOf (frameOf (vm.word vm.cr3 k))) = true

def started (vm : Vm) : Spaces := ⟨vm, vm.cr3, [vm.cr3]⟩

theorem Booted.coherent {vm : Vm} (booted : Booted vm) : (started vm).Coherent := by
  refine ⟨List.mem_singleton_self _, List.mem_singleton_self _, ?_, ?_, ?_, ?_, booted.pmm, ?_, ?_⟩
  all_goals
    intro d listed
    cases List.mem_singleton.mp listed
  · exact booted.ready.own
  · exact booted.ready.kernel
  · intro k hk present listed
    exact booted.ready.apart k hk present (List.mem_singleton.mp listed)
  · exact fun k _ _ present => ⟨present, rfl⟩
  · exact booted.rootUsed
  · exact booted.tablesUsed

theorem reaches_exec {t u : Spaces} (run : spaces.Reaches s t) {c : SpaceCall} (legal : t.Legal c)
    (step : t.exec c = some u) : spaces.Reaches s u :=
  run.snoc legal step

theorem kernelTable_reaches_exec {t u : Spaces} (run : kernelTableSpaces.Reaches s t) {c : SpaceCall}
    (legal : t.Legal c) (fromKernel : t.TablesFromKernel c) (step : t.exec c = some u) :
    kernelTableSpaces.Reaches s u :=
  run.snoc ⟨legal, fromKernel⟩ step

theorem coherent_of_reaches {vm : Vm} (booted : Booted vm) (run : kernelTableSpaces.Reaches (started vm) s) :
    s.Coherent := by
  refine run.invariant (I := Coherent) ?_ booted.coherent
  intro s call t coherent legal step
  exact coherent.exec legal.1 legal.2 step

/-- As long as kernel page tables are made in the kernel directory only, all directories share the
kernel half; the first one made elsewhere breaks it. -/
theorem kernel_half_shared_iff (vm : Vm) (booted : Booted vm) (s : Spaces)
    (run : kernelTableSpaces.Reaches (started vm) s) :
    s.SharesKernelHalf ∧
    ∀ call t, s.Legal call → s.exec call = some t → (t.SharesKernelHalf ↔ s.TablesFromKernel call) := by
  have coherent := coherent_of_reaches booted run
  refine ⟨coherent.shares, fun call t legal step => ⟨fun shares => ?_, fun fromKernel => ?_⟩⟩
  · by_contra otherwise
    cases call with
    | map phys virt flags => exact coherent.parts legal otherwise step shares
    | switch dir => exact otherwise trivial
    | newDirectory => exact otherwise trivial
    | unmap virt => exact otherwise trivial
    | fault addr => exact otherwise trivial
  · exact (coherent.exec legal fromKernel step).shares

-- eight frames, of which the first three are in use
def threeInUse : Pmm.Region := ⟨0x3000#32, 0x5000#32, true, by decide⟩

def bootedKernel : Vm := { bareDirectory with pmm := Pmm.boot 0x8000#32 [threeInUse] }

theorem bootedKernel_booted : Booted bootedKernel := by
  have ready := bareDirectory_wellFormed.ready
  refine ⟨⟨⟨ready.own.present, ready.own.frame⟩, ready.kernel, ready.apart⟩,
    Pmm.boot_sound 0x8000#32 [threeInUse] (by decide), by decide, fun k below present => ?_⟩
  have only : k = 768 := bareDirectory_present below present
  subst only
  decide

-- a new process directory is made and becomes active
def processActive : Spaces where
  vm := ((bootedKernel.withPmm bootedKernel.pmm.allocBlock.2).withDirectory bootedKernel.cr3
    bootedKernel.pmm.allocBlock.1).vmmngrSwitchPageDirectory bootedKernel.pmm.allocBlock.1
  kernelPd := bootedKernel.cr3
  dirs := [bootedKernel.pmm.allocBlock.1, bootedKernel.cr3]

theorem processActive_reached : kernelTableSpaces.Reaches (started bootedKernel) processActive := by
  have made := bootedKernel_booted.coherent.newDirectory (by decide)
  have first := kernelTable_reaches_exec (c := .newDirectory) (.refl _) trivial trivial made
  exact kernelTable_reaches_exec (c := .switch bootedKernel.pmm.allocBlock.1) first List.mem_cons_self trivial rfl

theorem processActive_elsewhere :
    ¬ processActive.TablesFromKernel (.map 0x7000#32 0xc0400000#32 2#32) := by
  simp only [TablesFromKernel, not_or, not_forall, not_not]
  exact ⟨by decide, by decide, 4, by decide, by decide⟩

theorem kernel_half_shared_iff_process_active : processActive.SharesKernelHalf :=
  (kernel_half_shared_iff bootedKernel bootedKernel_booted processActive processActive_reached).1

/-- A kernel page mapped while a process directory is active stays unknown to the kernel directory. -/
theorem kernel_half_not_shared :
    ∃ s, spaces.Reaches (started bootedKernel) s ∧ ¬ s.SharesKernelHalf := by
  have coherent := coherent_of_reaches bootedKernel_booted processActive_reached
  have addr : KernelAddr 0xc0400000#32 := ⟨by decide, by decide⟩
  have mapped := coherent.map_absent addr.index.2 (by decide) (by decide) 0x7000#32 2#32
  have reached : spaces.Reaches (started bootedKernel) processActive :=
    Machine.Reaches.mono (M := kernelTableSpaces) (N := spaces) rfl (fun _ _ legal => legal.1) processActive_reached
  exact ⟨_, reaches_exec (c := .map 0x7000#32 0xc0400000#32 2#32) reached addr mapped,
    coherent.parts addr processActive_elsewhere mapped⟩

end Spaces
end Kerosene.Mem
