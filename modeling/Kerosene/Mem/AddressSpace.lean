import Kerosene.Mem.Teardown
import Kerosene.Mem.Translation

/-!
# The frames of one address space

A new directory is filled page by page and then freed. Each frame taken for it meanwhile is the
directory, one of its tables, mapped in it, or was left over when a map failed.
-/

namespace Kerosene.Mem
open Lib Spaces

/-- A directory that is being filled, the frames taken for it that are not mapped, and the pages
that are. -/
structure AddressSpace where
  vm : Vm
  pd : Word
  spare : List Word
  pages : List Nat

inductive SpaceRequest where
  | allocBlock
  | allocMultiBlock (cnt : Word)
  | map (frame virt flags : Word)

namespace AddressSpace

def handOut (s : AddressSpace) (cnt : Nat) (out : Word × Pmm) : AddressSpace :=
  { s with vm := s.vm.withPmm out.2, spare := if out.1 = 0#32 then s.spare else framesFrom out.1 cnt ++ s.spare }

def exec (s : AddressSpace) : SpaceRequest → Option AddressSpace
  | .allocBlock => some (s.handOut 1 s.vm.pmm.allocBlock)
  | .allocMultiBlock cnt => some (s.handOut cnt.toNat (s.vm.pmm.allocMultiBlock cnt))
  | .map frame virt flags => (s.vm.vmmngrMap s.pd frame virt flags).map fun
      | (.success, vm) => { s with vm := vm, spare := s.spare.erase frame, pages := page virt :: s.pages }
      | (.oom, vm) => { s with vm := vm }

def Legal (s : AddressSpace) : SpaceRequest → Prop
  | .allocBlock | .allocMultiBlock _ => True
  | .map frame virt _ => frame ∈ s.spare ∧ virt < kernelStart ∧ page virt ∉ s.pages

def filling : Machine AddressSpace SpaceRequest where
  Legal := Legal
  step := exec

end AddressSpace

theorem userAddr_index {virt : Word} (user : virt < kernelStart) : pageDirectoryIndex virt < 768 := by
  have below := BitVec.lt_def.mp user
  rw [pageDirectoryIndex_eq]
  simp only [kernelStart, BitVec.toNat_ofNat] at below
  omega

theorem userAddr_ordinary {virt : Word} (user : virt < kernelStart) : Ordinary virt := by
  have index := userAddr_index user
  refine ⟨?_, fun same => ?_, fun same => ?_⟩
  · have below := BitVec.lt_def.mp user
    simp only [kernelStart, BitVec.toNat_ofNat] at below
    omega
  · have slot : pageDirectoryIndex vmmngrTempTable = 768 := rfl
    have := ((page_eq_iff _ _).mp same).1
    omega
  · have slot : pageDirectoryIndex vmmngrTempPd = 768 := rfl
    have := ((page_eq_iff _ _).mp same).1
    omega

theorem exists_userAddr {i k : Nat} (table : i < 768) (entry : k < 1024) :
    ∃ virt : Word, virt < kernelStart ∧ pageDirectoryIndex virt = i ∧ pageTableIndex virt = k := by
  have value : (BitVec.ofNat 32 (i * 2 ^ 22 + k * 4096 + 4 * 0)).toNat = i * 2 ^ 22 + k * 4096 + 4 * 0 := by
    rw [BitVec.toNat_ofNat]
    omega
  have splits := splits_of_toNat entry (by decide) value
  refine ⟨_, ?_, splits.directory, splits.table⟩
  rw [BitVec.lt_def, value]
  simp only [kernelStart, BitVec.toNat_ofNat]
  omega

/-! ## How the frames of a directory grow -/

theorem entryFrames_exchanged (old : Nat → Word) {new : Nat → Word} {k : Nat} {frame : Word} (inside : k < 1024)
    (same : ∀ j < 1024, j ≠ k → new j = old j) (entry : frameOf (new k) = frame) (nonzero : frame ≠ 0#32) :
    (mappedFrame (old k) ++ entryFrames new).Perm ([frame] ++ entryFrames old) := by
  rw [entryFrames, entryFrames]
  refine flatMap_perm_exchanged List.nodup_range (List.mem_range.mpr inside) ?_ ?_
  · intro j member other
    simp only [same j (List.mem_range.mp member) other]
  · simp only [mappedFrame, entry, nonzero, if_false]
    exact List.perm_append_comm

theorem entryFrames_zero : entryFrames (fun _ => 0#32) = [] := by
  have none : mappedFrame 0#32 = [] := rfl
  simp only [entryFrames, none, List.flatMap_eq_nil_iff, implies_true]

theorem mem_entryFrames {table : Nat → Word} {f : Word} :
    f ∈ entryFrames table ↔ ∃ k < 1024, frameOf (table k) ≠ 0#32 ∧ f = frameOf (table k) := by
  simp only [entryFrames, List.mem_flatMap, List.mem_range, mappedFrame]
  refine exists_congr fun k => and_congr_right fun _ => ?_
  split_ifs with empty <;> simp [empty]

namespace Vm
variable {m m' : Vm} {pd : Word}

theorem freedFrames_exchanged (lost extra : List Word) {i : Nat} (inside : i < 768)
    (same : ∀ k < 768, k ≠ i → m'.tableFrames pd k = m.tableFrames pd k)
    (exchanged : (lost ++ m'.tableFrames pd i).Perm (extra ++ m.tableFrames pd i)) :
    (lost ++ m'.freedFrames pd).Perm (extra ++ m.freedFrames pd) := by
  rw [freedFrames, freedFrames, ← List.append_assoc, ← List.append_assoc]
  refine List.Perm.append_right _ (flatMap_perm_exchanged List.nodup_range (List.mem_range.mpr inside) ?_ exchanged)
  intro k member
  exact same k (List.mem_range.mp member)

theorem tableFrames_congr {i : Nat} (entry : m'.word pd i = m.word pd i)
    (table : m.word pd i ≠ 0#32 → m'.word (frameOf (m.word pd i)) = m.word (frameOf (m.word pd i))) :
    m'.tableFrames pd i = m.tableFrames pd i := by
  rw [tableFrames, tableFrames, entry]
  split_ifs with empty
  · rfl
  · rw [table empty]

theorem freedFrames_congr (same : ∀ i < 768, m'.tableFrames pd i = m.tableFrames pd i) :
    m'.freedFrames pd = m.freedFrames pd := by
  rw [freedFrames, freedFrames, List.flatMap_congr fun i inside => same i (List.mem_range.mp inside)]

theorem mem_freedFrames {f : Word} : f ∈ m.freedFrames pd ↔
    f = pd ∨ ∃ i < 768, m.word pd i ≠ 0#32 ∧ (f = frameOf (m.word pd i) ∨ f ∈ entryFrames (m.word (frameOf (m.word pd i)))) := by
  simp only [freedFrames, List.mem_append, List.mem_flatMap, List.mem_range, List.mem_singleton, tableFrames]
  rw [or_comm]
  refine or_congr_right (exists_congr fun i => and_congr_right fun _ => ?_)
  split_ifs with empty
  · simp [empty]
  · rw [List.mem_append, List.mem_singleton, or_comm, and_iff_right empty]

theorem table_mem_freedFrames {i : Nat} (inside : i < 768) (entry : m.word pd i ≠ 0#32) :
    frameOf (m.word pd i) ∈ m.freedFrames pd :=
  mem_freedFrames.mpr (.inr ⟨i, inside, entry, .inl rfl⟩)

theorem tableFrames_disjoint (nodup : (m.freedFrames pd).Nodup) {i k : Nat} (inside : i < 768) (under : k < 768)
    (other : i ≠ k) : (m.tableFrames pd i).Disjoint (m.tableFrames pd k) := by
  have disjoint := (List.nodup_flatMap.mp nodup.of_append_left).2
  have ordered : ∀ i k, i < k → k < 768 → (m.tableFrames pd i).Disjoint (m.tableFrames pd k) := by
    intro i k less under
    have apart := List.pairwise_iff_getElem.mp disjoint i k (by rw [List.length_range]; omega)
      (by rw [List.length_range]; exact under) less
    simpa only [List.getElem_range] using apart
  rcases Nat.lt_or_gt_of_ne other with less | greater
  · exact ordered i k less under
  · exact (ordered k i greater inside).symm

theorem table_mem_tableFrames {i : Nat} (entry : m.word pd i ≠ 0#32) : frameOf (m.word pd i) ∈ m.tableFrames pd i := by
  rw [tableFrames, if_neg entry]
  exact List.mem_append_right _ (List.mem_singleton_self _)

/-- No table stands in two entries, since it would then be freed twice. -/
theorem table_inj (nodup : (m.freedFrames pd).Nodup) {i k : Nat} (inside : i < 768) (under : k < 768)
    (left : m.word pd i ≠ 0#32) (right : m.word pd k ≠ 0#32) (same : frameOf (m.word pd i) = frameOf (m.word pd k)) :
    i = k := by
  by_contra other
  have twice := table_mem_tableFrames right
  rw [← same] at twice
  exact tableFrames_disjoint nodup inside under other (table_mem_tableFrames left) twice

end Vm

/-! ## One call -/

theorem framesFrom_one (addr : Word) : framesFrom addr 1 = [addr] := by
  simp [framesFrom]

theorem getLsbD_present_or (flags : Word) : (entryPresent ||| flags).getLsbD 0 = true := by
  rw [BitVec.getLsbD_or, show entryPresent.getLsbD 0 = true from rfl, Bool.true_or]

namespace AddressSpace
variable {start : Pmm} {dirs : List Word} {slots : Word} {s t : AddressSpace}

/-- Every frame taken since `start` is accounted for, and the entries of the directory are those
that the calls have made. -/
structure Populated (start : Pmm) (dirs : List Word) (slots : Word) (s : AddressSpace) : Prop where
  housed : s.vm.Housed (s.pd :: dirs) slots
  inactive : s.pd ≠ s.vm.cr3
  slotsUsed : start.testBit (blockOf slots) = true
  tables : ∀ i < 768, s.vm.word s.pd i ≠ 0#32 → isPresent (s.vm.word s.pd i) = true
  entries : ∀ i < 768, s.vm.word s.pd i ≠ 0#32 → ∀ k < 1024, s.vm.word (frameOf (s.vm.word s.pd i)) k ≠ 0#32 →
    isPresent (s.vm.word (frameOf (s.vm.word s.pd i)) k) = true ∧
      frameOf (s.vm.word (frameOf (s.vm.word s.pd i)) k) ≠ 0#32 ∧ i * 1024 + k ∈ s.pages
  accounts : start.HandedOut (s.vm.freedFrames s.pd ++ s.spare) s.vm.pmm

theorem isPresent_ne {entry : Word} (present : isPresent entry = true) : entry ≠ 0#32 := by
  rintro rfl
  cases present

theorem Populated.ne_slots (populated : Populated start dirs slots s) {f : Word}
    (member : f ∈ s.vm.freedFrames s.pd ++ s.spare) : f ≠ slots := by
  rintro rfl
  have free := populated.accounts.fresh _ member
  rw [populated.slotsUsed] at free
  cases free

theorem Populated.table_ne_slots (populated : Populated start dirs slots s) {i : Nat} (inside : i < 768)
    (entry : s.vm.word s.pd i ≠ 0#32) : frameOf (s.vm.word s.pd i) ≠ slots :=
  populated.ne_slots (List.mem_append_left _ (Vm.table_mem_freedFrames inside entry))

theorem Populated.handOut (populated : Populated start dirs slots s) {cnt : Nat} {out : Word × Pmm}
    (alloc : s.vm.pmm.Allocates cnt out) : Populated start dirs slots (s.handOut cnt out) := by
  by_cases refused : out.1 = 0#32
  · have same : s.handOut cnt out = s := by
      rw [AddressSpace.handOut, if_pos refused, alloc.keeps refused]
      rfl
    rw [same]
    exact populated
  · have taken := populated.accounts.take alloc refused
    have kept : ∀ b, s.vm.pmm.testBit b = true → out.2.testBit b = true := by
      intro b used
      rw [taken.bits]
      rw [populated.accounts.bits] at used
      refine used.imp_right fun member => ?_
      rw [List.map_append]
      exact List.mem_append_right _ member
    have frames : (s.vm.withPmm out.2).freedFrames s.pd = s.vm.freedFrames s.pd := Vm.freedFrames_congr fun _ _ => rfl
    rw [AddressSpace.handOut, if_neg refused]
    refine ⟨populated.housed.grow alloc.sound kept, populated.inactive, populated.slotsUsed, populated.tables,
      populated.entries, ?_⟩
    rw [frames]
    exact taken.perm (List.perm_append_comm_assoc _ _ _)

theorem Populated.slotsOnly (populated : Populated start dirs slots s) {vm : Vm} (root : vm.cr3 = s.vm.cr3)
    (pmm : vm.pmm = s.vm.pmm) (words : ∀ g, g ≠ slots → vm.word g = s.vm.word g) :
    Populated start dirs slots { s with vm := vm } := by
  have notSlots : ∀ d ∈ s.pd :: dirs, d ≠ slots := by
    rintro d member rfl
    exact populated.housed.slots_notMem member
  have directory := words s.pd (notSlots s.pd List.mem_cons_self)
  have frames : vm.freedFrames s.pd = s.vm.freedFrames s.pd :=
    Vm.freedFrames_congr fun i inside => Vm.tableFrames_congr (congrFun directory i) fun entry =>
      words _ (populated.table_ne_slots inside entry)
  refine ⟨populated.housed.congr (root ▸ populated.housed.active) pmm fun d member => words d (notSlots d member),
    root ▸ populated.inactive, populated.slotsUsed, ?_, ?_, ?_⟩
  · simp only [directory]
    exact populated.tables
  · simp only [directory]
    intro i inside entry
    rw [words _ (populated.table_ne_slots inside entry)]
    exact populated.entries i inside entry
  · rw [frames, pmm]
    exact populated.accounts

section Map
variable (populated : Populated start dirs slots s) {frame virt : Word} (spare : frame ∈ s.spare)
  (user : virt < kernelStart) (new : page virt ∉ s.pages) (flags : Word)
include populated

include user new in
theorem Populated.entry_zero (entry : s.vm.word s.pd (pageDirectoryIndex virt) ≠ 0#32) :
    s.vm.word (s.vm.tableIn s.pd virt) (pageTableIndex virt) = 0#32 := by
  by_contra nonzero
  have listed := (populated.entries _ (userAddr_index user) entry _ (pageTableIndex_lt virt) nonzero).2.2
  rw [← page_eq] at listed
  exact new listed

include spare in
theorem Populated.spare_spec : Aligned frame ∧ frame ≠ 0#32 ∧ s.spare.Perm (frame :: s.spare.erase frame) :=
  ⟨populated.accounts.aligned _ (List.mem_append_right _ spare), populated.accounts.nonzero _ (List.mem_append_right _ spare),
    List.perm_cons_erase spare⟩

theorem Populated.mapped (vm : Vm) {made : Word} {old : Nat → Word} (housed : vm.Housed (s.pd :: dirs) slots)
    (inactive : s.pd ≠ vm.cr3) (madePresent : isPresent made = true) (madeFrame : frameOf made ≠ 0#32)
    (others : ∀ i < 768, i ≠ pageDirectoryIndex virt → vm.word s.pd i = s.vm.word s.pd i ∧
      (s.vm.word s.pd i ≠ 0#32 → vm.word (frameOf (s.vm.word s.pd i)) = s.vm.word (frameOf (s.vm.word s.pd i))))
    (present : isPresent (vm.word s.pd (pageDirectoryIndex virt)) = true)
    (here : ∀ k < 1024, vm.word (vm.tableIn s.pd virt) k = if k = pageTableIndex virt then made else old k)
    (before : ∀ k < 1024, old k ≠ 0#32 →
      isPresent (old k) = true ∧ frameOf (old k) ≠ 0#32 ∧ pageDirectoryIndex virt * 1024 + k ∈ s.pages)
    {spare : List Word} (accounts : start.HandedOut (vm.freedFrames s.pd ++ spare) vm.pmm) :
    Populated start dirs slots { s with vm := vm, spare := spare, pages := page virt :: s.pages } := by
  refine ⟨housed, inactive, populated.slotsUsed, fun i inside => ?_, fun i inside nonzero k below => ?_, accounts⟩
  · by_cases same : i = pageDirectoryIndex virt
    · rw [same]
      exact fun _ => present
    · rw [(others i inside same).1]
      exact populated.tables i inside
  · by_cases same : i = pageDirectoryIndex virt
    · rw [same, show vm.word (frameOf (vm.word s.pd (pageDirectoryIndex virt))) k = _ from here k below]
      split_ifs with atEntry
      · intro _
        rw [atEntry, ← page_eq]
        exact ⟨madePresent, madeFrame, List.mem_cons_self⟩
      · intro nonempty
        obtain ⟨left, right, listed⟩ := before k below nonempty
        exact ⟨left, right, List.mem_cons_of_mem _ listed⟩
    · obtain ⟨entry, table⟩ := others i inside same
      rw [entry] at nonzero ⊢
      rw [table nonzero]
      intro nonempty
      obtain ⟨left, right, listed⟩ := populated.entries i inside nonzero k below nonempty
      exact ⟨left, right, List.mem_cons_of_mem _ listed⟩

include spare user new

omit new in
theorem Populated.setPage (present : isPresent (s.vm.word s.pd (pageDirectoryIndex virt)) = true) :
    Populated start dirs slots { s with
      vm := s.vm.write (s.vm.tableIn s.pd virt) (pageTableIndex virt)
        (entryWith (s.vm.word (s.vm.tableIn s.pd virt) (pageTableIndex virt)) (entryPresent ||| flags) frame)
      spare := mappedFrame (s.vm.word (s.vm.tableIn s.pd virt) (pageTableIndex virt)) ++ s.spare.erase frame
      pages := page virt :: s.pages } := by
  obtain ⟨aligned, nonzero, split⟩ := populated.spare_spec spare
  have index := userAddr_index user
  have entry := isPresent_ne present
  have notMem : s.vm.tableIn s.pd virt ∉ s.pd :: dirs :=
    populated.housed.apart s.pd List.mem_cons_self _ (by omega) present
  set lost := mappedFrame (s.vm.word (s.vm.tableIn s.pd virt) (pageTableIndex virt)) with lostDef
  set made := entryWith (s.vm.word (s.vm.tableIn s.pd virt) (pageTableIndex virt)) (entryPresent ||| flags) frame with madeDef
  have madePresent : isPresent made = true := isPresent_entryWith _ _ _ (getLsbD_present_or flags)
  have madeFrame : frameOf made = frame := frameOf_entryWith _ _ aligned
  set vm := s.vm.write (s.vm.tableIn s.pd virt) (pageTableIndex virt) made with vmDef
  have directory : vm.word s.pd = s.vm.word s.pd := by
    refine Vm.word_write_frame ?_ _ _ _
    rintro same
    exact notMem (same ▸ List.mem_cons_self)
  have other : ∀ i < 768, i ≠ pageDirectoryIndex virt → s.vm.word s.pd i ≠ 0#32 →
      vm.word (frameOf (s.vm.word s.pd i)) = s.vm.word (frameOf (s.vm.word s.pd i)) := by
    intro i inside different nonzero
    refine Vm.word_write_frame ?_ _ _ _
    exact fun h => different (Vm.table_inj populated.accounts.nodup.of_append_left inside index nonzero entry h)
  have here : ∀ k, vm.word (s.vm.tableIn s.pd virt) k =
      if k = pageTableIndex virt then made else s.vm.word (s.vm.tableIn s.pd virt) k := by
    intro k
    rw [vmDef, Vm.word_write]
    simp only [true_and]
  have exchanged : (lost ++ vm.freedFrames s.pd).Perm ([frame] ++ s.vm.freedFrames s.pd) := by
    refine Vm.freedFrames_exchanged lost [frame] index (fun i inside different => ?_) ?_
    · exact Vm.tableFrames_congr (congrFun directory i) (other i inside different)
    · rw [Vm.tableFrames, Vm.tableFrames, directory, if_neg entry, if_neg entry, ← List.append_assoc, ← List.append_assoc]
      refine List.Perm.append_right _ (entryFrames_exchanged _ (pageTableIndex_lt virt) (fun j _ different => ?_) ?_ nonzero)
      · exact (here j).trans (if_neg different)
      · rw [show vm.word (frameOf (s.vm.word s.pd (pageDirectoryIndex virt))) (pageTableIndex virt) = made from
          (here _).trans (if_pos rfl)]
        exact madeFrame
  refine populated.mapped vm (populated.housed.writeTable List.mem_cons_self (by omega) present _ _)
    populated.inactive madePresent (by rwa [madeFrame]) (fun i inside different => ⟨congrFun directory i, other i inside different⟩)
    (by rwa [directory]) (fun k _ => ?_) (populated.entries _ index entry) (populated.accounts.perm ?_)
  · rw [Vm.tableIn, directory]
    exact here k
  · calc s.vm.freedFrames s.pd ++ s.spare
      _ |>.Perm (s.vm.freedFrames s.pd ++ ([frame] ++ s.spare.erase frame)) := split.append_left _
      _ |>.Perm ([frame] ++ (s.vm.freedFrames s.pd ++ s.spare.erase frame)) := List.perm_append_comm_assoc _ _ _
      _ |>.Perm (lost ++ (vm.freedFrames s.pd ++ s.spare.erase frame)) := by
          rw [← List.append_assoc, ← List.append_assoc]
          exact (exchanged.append_right _).symm
      _ |>.Perm (vm.freedFrames s.pd ++ (lost ++ s.spare.erase frame)) := List.perm_append_comm_assoc _ _ _

theorem Populated.map_present (present : isPresent (s.vm.word s.pd (pageDirectoryIndex virt)) = true) :
    Populated start dirs slots { s with
      vm := (s.vm.write (s.vm.tableIn s.pd virt) (pageTableIndex virt)
        (entryWith (s.vm.word (s.vm.tableIn s.pd virt) (pageTableIndex virt)) (entryPresent ||| flags) frame)).shut
        s.vm.kernelTable
      spare := s.spare.erase frame
      pages := page virt :: s.pages } := by
  have set := populated.setPage spare user flags present
  have empty : mappedFrame (s.vm.word (s.vm.tableIn s.pd virt) (pageTableIndex virt)) = [] := by
    rw [populated.entry_zero user new (isPresent_ne present)]
    rfl
  rw [empty, List.nil_append] at set
  refine set.slotsOnly rfl rfl fun g other => Vm.word_shut_frame ?_ _
  rwa [populated.housed.kernelTable]

omit new in
theorem Populated.map_absent (absent : isPresent (s.vm.word s.pd (pageDirectoryIndex virt)) = false)
    (found : s.vm.pmm.allocBlock.1 ≠ 0#32) :
    Populated start dirs slots { s with
      vm := (s.vm.withPmm s.vm.pmm.allocBlock.2).withTableIn s.pd virt s.vm.pmm.allocBlock.1 frame flags
      spare := s.spare.erase frame
      pages := page virt :: s.pages } := by
  obtain ⟨aligned, nonzero, split⟩ := populated.spare_spec spare
  have index := userAddr_index user
  have member : s.pd ∈ s.pd :: dirs := List.mem_cons_self
  have alloc := Pmm.allocBlock_spec populated.housed.pmm
  have taken := populated.accounts.take alloc found
  rw [framesFrom_one] at taken
  have notSlots := populated.housed.alloc_notSlots found
  have empty : s.vm.word s.pd (pageDirectoryIndex virt) = 0#32 := by
    by_contra entry
    rw [populated.tables _ index entry] at absent
    cases absent
  have fresh : ∀ f ∈ s.vm.freedFrames s.pd ++ s.spare, f ≠ s.vm.pmm.allocBlock.1 := by
    rintro f listed rfl
    have nodup := taken.nodup
    rw [List.singleton_append, List.nodup_cons] at nodup
    exact nodup.1 listed
  set table := s.vm.pmm.allocBlock.1 with tableDef
  set made := entryWith 0#32 (entryPresent ||| flags) frame with madeDef
  have madePresent : isPresent made = true := isPresent_entryWith _ _ _ (getLsbD_present_or flags)
  have madeFrame : frameOf made = frame := frameOf_entryWith _ _ aligned
  set vm := (s.vm.withPmm s.vm.pmm.allocBlock.2).withTableIn s.pd virt table frame flags with vmDef
  have words : ∀ g, g ≠ slots → g ≠ s.pd → g ≠ table → vm.word g = s.vm.word g := by
    intro g one two three
    rw [vmDef, Vm.withTableIn, Vm.word_shut_frame (by rw [Vm.kernelTable_withPmm, populated.housed.kernelTable]; exact one),
      Vm.word_setWords, if_neg three, Vm.word_write_frame two]
    rfl
  have directory := populated.housed.word_withTableIn (p := s.pd) found virt frame flags member
  rw [empty] at directory
  have newFrame := frameOf_entryWith 0#32 (flags ||| entryPresent) (Vm.allocBlock_aligned populated.housed.pmm)
  have atEntry : vm.word s.pd (pageDirectoryIndex virt) = entryWith 0#32 (flags ||| entryPresent) table := by
    rw [directory, if_pos ⟨rfl, rfl⟩]
  have present : isPresent (vm.word s.pd (pageDirectoryIndex virt)) = true := by
    rw [atEntry]
    exact isPresent_entryWith _ _ _ (by rw [BitVec.or_comm]; exact getLsbD_present_or flags)
  have tableIn : vm.tableIn s.pd virt = table := by
    rw [Vm.tableIn, atEntry]
    exact newFrame
  have here : ∀ k < 1024, vm.word table k = if k = pageTableIndex virt then made else 0#32 := by
    intro k below
    rw [vmDef, Vm.withTableIn, Vm.word_shut_frame (by rw [Vm.kernelTable_withPmm, populated.housed.kernelTable]; exact notSlots),
      Vm.word_setWords, if_pos rfl, Vm.newTable, if_pos below]
  have other : ∀ i < 768, i ≠ pageDirectoryIndex virt → vm.word s.pd i = s.vm.word s.pd i ∧
      (s.vm.word s.pd i ≠ 0#32 → vm.word (frameOf (s.vm.word s.pd i)) = s.vm.word (frameOf (s.vm.word s.pd i))) := by
    intro i inside different
    refine ⟨by rw [directory, if_neg (fun h => different h.2)], fun nonzero => ?_⟩
    have listed := List.mem_append_left s.spare (Vm.table_mem_freedFrames inside nonzero)
    refine words _ (populated.ne_slots listed) (fun same => ?_) (fresh _ listed)
    have apart := populated.housed.apart s.pd member i (by omega) (populated.tables i inside nonzero)
    rw [same] at apart
    exact apart member
  have grown : ([] ++ vm.freedFrames s.pd).Perm ([frame, table] ++ s.vm.freedFrames s.pd) := by
    refine Vm.freedFrames_exchanged [] [frame, table] index (fun i inside different => ?_) ?_
    · exact Vm.tableFrames_congr (other i inside different).1 (other i inside different).2
    · have one : (mappedFrame 0#32 ++ entryFrames (vm.word table)).Perm ([frame] ++ entryFrames fun _ => 0#32) := by
        refine entryFrames_exchanged (fun _ => 0#32) (pageTableIndex_lt virt) (fun j below different => ?_) ?_ nonzero
        · rw [here j below, if_neg different]
        · rw [here _ (pageTableIndex_lt virt), if_pos rfl, madeFrame]
      have none : mappedFrame 0#32 = [] := rfl
      rw [none, List.nil_append, entryFrames_zero] at one
      rw [Vm.tableFrames, if_neg (isPresent_ne present), show frameOf (vm.word s.pd (pageDirectoryIndex virt)) = table from tableIn,
        Vm.tableFrames, if_pos empty, List.nil_append]
      exact one.append_right [table]
  rw [List.nil_append] at grown
  refine populated.mapped vm ?_ populated.inactive madePresent (by rwa [madeFrame]) other present
    (by rwa [tableIn]) (fun k _ h => absurd rfl h) (taken.perm ?_)
  · exact populated.housed.newEntry member found (by omega) absent rfl rfl fun d inside k =>
      populated.housed.word_withTableIn found virt frame flags inside k
  · calc [table] ++ (s.vm.freedFrames s.pd ++ s.spare)
      _ |>.Perm ([table] ++ (s.vm.freedFrames s.pd ++ ([frame] ++ s.spare.erase frame))) := (split.append_left _).append_left _
      _ |>.Perm ([table] ++ ([frame] ++ (s.vm.freedFrames s.pd ++ s.spare.erase frame))) :=
          (List.perm_append_comm_assoc _ _ _).append_left _
      _ |>.Perm ([frame] ++ ([table] ++ (s.vm.freedFrames s.pd ++ s.spare.erase frame))) := List.perm_append_comm_assoc _ _ _
      _ |>.Perm (vm.freedFrames s.pd ++ s.spare.erase frame) := by
          have joined := (grown.append_right (s.spare.erase frame)).symm
          rwa [List.append_assoc] at joined

end Map

theorem Populated.map_oom (populated : Populated start dirs slots s) :
    Populated start dirs slots { s with vm := s.vm.write s.vm.kernelTable 1023 0#32 } := by
  refine populated.slotsOnly rfl rfl fun g other => Vm.word_write_frame ?_ _ _ _
  rwa [populated.housed.kernelTable]

theorem Populated.exec (populated : Populated start dirs slots s) {request : SpaceRequest} (legal : s.Legal request)
    (step : s.exec request = some t) : Populated start dirs slots t := by
  cases request with
  | allocBlock =>
      cases step
      exact populated.handOut (Pmm.allocBlock_spec populated.housed.pmm)
  | allocMultiBlock cnt =>
      cases step
      exact populated.handOut (Pmm.allocMultiBlock_spec populated.housed.pmm cnt)
  | map frame virt flags =>
      obtain ⟨spare, user, new⟩ := legal
      have member : s.pd ∈ s.pd :: dirs := List.mem_cons_self
      have foreign := populated.housed.foreign member populated.inactive
      cases present : isPresent (s.vm.word s.pd (pageDirectoryIndex virt)) with
      | true =>
          have reachable := populated.housed.reachable member (userAddr_ordinary user) present
          rw [AddressSpace.exec, foreign.map_present reachable frame flags] at step
          cases step
          exact populated.map_present spare user new flags present
      | false =>
          by_cases refused : s.vm.pmm.allocBlock.1 = 0#32
          · have full : s.vm.pmm.allocBlock = (0#32, s.vm.pmm) :=
              Prod.ext refused ((Pmm.allocBlock_spec populated.housed.pmm).keeps refused)
            rw [AddressSpace.exec, foreign.map_oom present full frame flags] at step
            cases step
            exact populated.map_oom
          · rw [AddressSpace.exec, populated.housed.map_absent_eq member populated.inactive present refused frame flags] at step
            cases step
            exact populated.map_absent spare user flags present refused

/-! ## A whole life -/

theorem fresh_populated {m : Vm} (housed : m.Housed dirs slots) {kernelPd : Word} (kernel : kernelPd ∈ dirs)
    (noUser : ∀ k < 768, m.word kernelPd k = 0#32) (found : m.pmm.allocBlock.1 ≠ 0#32) :
    Populated m.pmm dirs slots ⟨m.fresh kernelPd, m.pmm.allocBlock.1, [], []⟩ := by
  have empty : ∀ i < 768, (m.fresh kernelPd).word m.pmm.allocBlock.1 i = 0#32 := by
    intro i inside
    rw [housed.word_fresh_entry found (by omega), noUser i inside]
  have frames : (m.fresh kernelPd).freedFrames m.pmm.allocBlock.1 = [m.pmm.allocBlock.1] := by
    have none : (List.range 768).flatMap ((m.fresh kernelPd).tableFrames m.pmm.allocBlock.1) = [] := by
      rw [List.flatMap_eq_nil_iff]
      intro i inside
      rw [Vm.tableFrames, if_pos (empty i (List.mem_range.mp inside))]
    rw [Vm.freedFrames, none, List.nil_append]
  have taken := (Pmm.HandedOut.nothing housed.pmm).take (Pmm.allocBlock_spec housed.pmm) found
  rw [framesFrom_one] at taken
  have inactive : m.pmm.allocBlock.1 ≠ m.cr3 := fun same => housed.alloc_notMem found (same ▸ housed.active)
  refine ⟨housed.fresh kernel found, inactive, ?_,
    fun i inside entry => absurd (empty i inside) entry, fun i inside entry => absurd (empty i inside) entry, ?_⟩
  · rw [← (housed.slot _ kernel).2]
    exact housed.tablesUsed _ kernel 768 (by decide) (housed.slot _ kernel).1
  · rw [frames]
    exact taken

theorem populated_of_reaches {m : Vm} {d : Word} (start : Populated m.pmm dirs slots s)
    (run : filling.Reaches s t) (same : s.pd = d) : Populated m.pmm dirs slots t ∧ t.pd = d := by
  refine run.invariant (I := fun t => Populated m.pmm dirs slots t ∧ t.pd = d) ?_ ⟨start, same⟩
  rintro s request t ⟨populated, same⟩ legal step
  refine ⟨populated.exec legal step, ?_⟩
  cases request with
  | allocBlock =>
      cases step
      exact same
  | allocMultiBlock cnt =>
      cases step
      exact same
  | map frame virt flags =>
      simp only [filling, AddressSpace.exec, Option.map_eq_some_iff] at step
      obtain ⟨⟨err, vm⟩, _, rfl⟩ := step
      cases err <;> exact same

theorem Populated.mem_freedFrames (populated : Populated start dirs slots s) (f : Word) :
    f ∈ s.vm.freedFrames s.pd ↔ f = s.pd ∨
      (∃ virt < kernelStart, isPresent (s.vm.word s.pd (pageDirectoryIndex virt)) = true ∧ f = s.vm.tableIn s.pd virt) ∨
      ∃ virt < kernelStart, s.vm.walk s.pd virt = some f := by
  rw [Vm.mem_freedFrames]
  refine or_congr_right ⟨?_, ?_⟩
  · rintro ⟨i, inside, entry, isTable | isFrame⟩
    · obtain ⟨virt, user, rfl, _⟩ := exists_userAddr inside (k := 0) (by decide)
      exact .inl ⟨virt, user, populated.tables _ inside entry, isTable⟩
    · obtain ⟨k, below, nonzero, rfl⟩ := mem_entryFrames.mp isFrame
      obtain ⟨virt, user, rfl, rfl⟩ := exists_userAddr inside below
      refine .inr ⟨virt, user, walk_of_table (populated.tables _ inside entry) rfl ?_⟩
      refine (populated.entries _ inside entry _ below fun empty => nonzero ?_).1
      rw [empty]
      rfl
  · rintro (⟨virt, user, present, rfl⟩ | ⟨virt, user, walked⟩)
    · exact ⟨_, userAddr_index user, isPresent_ne present, .inl rfl⟩
    · obtain ⟨present, mapped, rfl⟩ := walk_some walked
      have entry := isPresent_ne present
      refine ⟨_, userAddr_index user, entry, .inr (mem_entryFrames.mpr ⟨_, pageTableIndex_lt virt, ?_, rfl⟩)⟩
      exact (populated.entries _ (userAddr_index user) entry _ (pageTableIndex_lt virt) (isPresent_ne mapped)).2.1

/-- A directory made from a kernel directory without user entries, filled by any sequence of
allocations and maps and then freed, gives back the directory, its tables and the mapped frames,
each once. What stays allocated is what was taken for it and not mapped. -/
theorem teardown_is_exact (m : Vm) (dirs : List Word) (slots : Word) (housed : m.Housed dirs slots) (kernelPd : Word)
    (kernel : kernelPd ∈ dirs) (noUser : ∀ k < 768, m.word kernelPd k = 0#32) (pd : Word) (made : Vm)
    (alloc : m.vmmngrAllocPageDirectory kernelPd = some (pd, made)) (nonzero : pd ≠ 0#32) (s : AddressSpace)
    (run : filling.Reaches ⟨made, pd, [], []⟩ s) :
    ∃ (after : Vm) (freed : List Word), s.vm.vmmngrFreePageDirectory pd = some after ∧
      after.pmm = freed.foldl Pmm.freeBlock s.vm.pmm ∧ freed.Nodup ∧
      (∀ f, f ∈ freed ↔ f = pd ∨
        (∃ virt < kernelStart, isPresent (s.vm.word pd (pageDirectoryIndex virt)) = true ∧ f = s.vm.tableIn pd virt) ∨
        ∃ virt < kernelStart, s.vm.walk pd virt = some f) ∧
      (∀ b, after.pmm.testBit b = true ↔ m.pmm.testBit b = true ∨ b ∈ s.spare.map blockOf) ∧
      after.pmm.usedBlock.toNat = m.pmm.usedBlock.toNat + s.spare.length ∧
      (s.spare = [] → after.pmm = m.pmm) ∧
      (∀ f ∈ freed, m.pmm.testBit (blockOf f) = false) ∧
      ∀ d ∈ dirs, ∀ k < 1023, isPresent (m.word d k) = true → frameOf (m.word d k) ∉ freed := by
  by_cases refused : m.pmm.allocBlock.1 = 0#32
  · have full : m.pmm.allocBlock = (0#32, m.pmm) := Prod.ext refused ((Pmm.allocBlock_spec housed.pmm).keeps refused)
    rw [Vm.allocPageDirectory_none full] at alloc
    cases alloc
    exact absurd rfl nonzero
  rw [housed.allocPageDirectory kernel refused] at alloc
  cases alloc
  obtain ⟨populated, same⟩ := populated_of_reaches (d := m.pmm.allocBlock.1)
    (fresh_populated housed kernel noUser refused) run rfl
  have foreign := populated.housed.foreign List.mem_cons_self populated.inactive
  obtain ⟨after, freed, _, _, pmm⟩ := foreign.freePageDirectory fun i inside entry => by
    rw [populated.housed.kernelTable]
    exact populated.table_ne_slots inside entry
  have left := populated.accounts.giveAll (List.Perm.refl _)
  rw [← pmm] at left
  have unused : ∀ f ∈ s.vm.freedFrames s.pd, m.pmm.testBit (blockOf f) = false := fun f member =>
    populated.accounts.fresh f (List.mem_append_left _ member)
  rw [← same]
  refine ⟨after, s.vm.freedFrames s.pd, freed, pmm, populated.accounts.nodup.of_append_left, populated.mem_freedFrames,
    left.bits, left.used housed.pmm, fun none => ?_, unused, fun d member k below present listed => ?_⟩
  · rw [none] at left
    exact left.eq_start housed.pmm
  · have free := unused _ listed
    rw [housed.tablesUsed d member k below present] at free
    cases free

theorem filling_snoc {u : AddressSpace} (run : filling.Reaches s t) {r : SpaceRequest} (legal : t.Legal r)
    (step : t.exec r = some u) : filling.Reaches s u :=
  run.snoc legal step

theorem bootedKernel_noUser : ∀ k < 768, bootedKernel.word bootedKernel.cr3 k = 0#32 := by
  intro k below
  have notLast : k ≠ 1023 := by omega
  have notSlots : k ≠ 768 := by omega
  simp [bootedKernel, bareDirectory, notLast, notSlots]

-- one page of a new process
def onePage : AddressSpace :=
  ⟨processMade.vm.withPmm processMade.vm.pmm.allocBlock.2, 0x3000#32, [0x4000#32], []⟩

theorem teardown_is_exact_one_page :
    ∃ s after, filling.Reaches ⟨processMade.vm, 0x3000#32, [], []⟩ s ∧ s.pages = [0x400] ∧
      s.vm.vmmngrFreePageDirectory 0x3000#32 = some after ∧ after.pmm = bootedKernel.pmm := by
  have housed := bootedKernel_housed
  have kernel : bootedKernel.cr3 ∈ [bootedKernel.cr3] := List.mem_singleton_self _
  have alloc := housed.allocPageDirectory kernel (by decide)
  rw [show bootedKernel.pmm.allocBlock.1 = 0x3000#32 by decide] at alloc
  have taken : filling.Reaches ⟨processMade.vm, 0x3000#32, [], []⟩ onePage := by
    refine filling_snoc (r := .allocBlock) (.refl _) trivial ?_
    rw [AddressSpace.exec, AddressSpace.handOut, if_neg (by decide), framesFrom_one,
      show processMade.vm.pmm.allocBlock.1 = 0x4000#32 by decide]
    rfl
  have populated := (populated_of_reaches (d := 0x3000#32) (m := bootedKernel) (fresh_populated housed kernel bootedKernel_noUser
    (by decide)) taken (by decide)).1
  have mapped := populated.housed.map_absent_eq (v := 0x400000#32) List.mem_cons_self populated.inactive (by decide)
    (by decide) 0x4000#32 7#32
  have step : onePage.exec (.map 0x4000#32 0x400000#32 7#32) = some { onePage with
      vm := (onePage.vm.withPmm onePage.vm.pmm.allocBlock.2).withTableIn 0x3000#32 0x400000#32
        onePage.vm.pmm.allocBlock.1 0x4000#32 7#32, spare := [], pages := [0x400] } := by
    rw [AddressSpace.exec, mapped]
    rfl
  have run := filling_snoc (r := .map 0x4000#32 0x400000#32 7#32) taken
    ⟨List.mem_singleton_self _, by decide, List.not_mem_nil⟩ step
  obtain ⟨after, _, freed, _, _, _, _, _, back, _⟩ := teardown_is_exact bootedKernel _ _ housed bootedKernel.cr3 kernel
    bootedKernel_noUser 0x3000#32 _ alloc (by decide) _ run
  exact ⟨_, after, run, rfl, freed, back rfl⟩

end AddressSpace
end Kerosene.Mem
