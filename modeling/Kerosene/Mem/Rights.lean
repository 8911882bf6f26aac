import Kerosene.Mem.PageMap

/-!
# The rights of the pages in the active directory

A page is writable, or open to user mode, when both its directory entry and its table entry say so. `vmmngr_map` adds the
attributes it is given to the table entry, and gives them to the directory entry only when it makes the table.
-/

namespace Kerosene.Mem
open Lib

inductive Right where
  | writable
  | user
  deriving DecidableEq

instance : Fintype Right := ⟨{.writable, .user}, fun right => by cases right <;> decide⟩

-- `PTE_WRITABLE` and `PTE_USER`, the same in both kinds of entries and in `flags`
def Right.bit : Right → Nat
  | .writable => 1
  | .user => 2

def rightsIn (entry : Word) : Finset Right := Finset.univ.filter fun right => entry.getLsbD right.bit = true

theorem mem_rightsIn {entry : Word} {right : Right} : right ∈ rightsIn entry ↔ entry.getLsbD right.bit = true := by
  rw [rightsIn, Finset.mem_filter, and_iff_right (Finset.mem_univ right)]

theorem inf_sup_eq_iff {α : Type*} [DistribLattice α] (bound left added : α) :
    bound ⊓ (left ⊔ added) = added ↔ added ≤ bound ∧ bound ⊓ left ≤ added := by
  rw [inf_sup_left]
  constructor
  · intro granted
    exact ⟨granted ▸ sup_le inf_le_left inf_le_left, le_sup_left.trans granted.le⟩
  · rintro ⟨allowed, nothing⟩
    rw [inf_eq_right.mpr allowed, sup_eq_right.mpr nothing]

theorem rightsIn_entryWith (old attrib : Word) {frame : Word} (aligned : Aligned frame) :
    rightsIn (entryWith old attrib frame) = rightsIn old ∪ rightsIn attrib := by
  ext right
  have low : right.bit < 12 := by cases right <;> decide
  have frameBit : pageFrameBits.getLsbD right.bit = false := by cases right <;> rfl
  have attribBit : (0xfff#32).getLsbD right.bit = true := by cases right <;> rfl
  rw [Finset.mem_union, mem_rightsIn, mem_rightsIn, mem_rightsIn, entryWith, BitVec.getLsbD_or, BitVec.getLsbD_and,
    BitVec.getLsbD_or, BitVec.getLsbD_and, BitVec.getLsbD_not, aligned.bit low, frameBit, attribBit]
  simp [show right.bit < 32 by omega]

theorem rightsIn_present (flags : Word) :
    rightsIn (entryPresent ||| flags) = rightsIn flags ∧ rightsIn (flags ||| entryPresent) = rightsIn flags := by
  constructor
  all_goals
    ext right
    rw [mem_rightsIn, mem_rightsIn, BitVec.getLsbD_or]
    cases right <;> simp [Right.bit, entryPresent]

namespace Vm
variable {m : Vm}

/-- The effective rights of a mapped page. -/
def rights (m : Vm) (virt : Word) : Option (Finset Right) :=
  if isPresent (m.pdeOf virt) && isPresent (m.pteOf virt) then some (rightsIn (m.pdeOf virt) ∩ rightsIn (m.pteOf virt)) else none

theorem rights_congr {m m' : Vm} {virt : Word} (directory : m'.pdeOf virt = m.pdeOf virt)
    (table : isPresent (m.pdeOf virt) = true → m'.pteOf virt = m.pteOf virt) : m'.rights virt = m.rights virt := by
  rw [rights, rights, directory]
  cases present : isPresent (m.pdeOf virt) with
  | false => simp
  | true => rw [table present]

theorem rights_page {v w : Word} (same : page v = page w) : m.rights v = m.rights w := by
  obtain ⟨directory, table⟩ := (page_eq_iff v w).mp same
  have sameDirectory : m.pdeOf v = m.pdeOf w := by rw [pdeOf, directory, pdeOf]
  have sameTable : m.pteOf v = m.pteOf w := by rw [pteOf, tableOf, sameDirectory, table, pteOf, tableOf]
  rw [rights, rights, sameDirectory, sameTable]

/-! ## One call -/

/-- What a page gets when it is mapped with `flags`. -/
def granted (m : Vm) (virt flags : Word) : Finset Right :=
  if isPresent (m.pdeOf virt) then rightsIn (m.pdeOf virt) ∩ (rightsIn (m.pteOf virt) ∪ rightsIn flags) else rightsIn flags

/-- The table of the page, if there is one, was made with these rights, and its entry has no other right that counts. -/
def CanGrant (m : Vm) (virt flags : Word) : Prop :=
  isPresent (m.pdeOf virt) = true → rightsIn flags ⊆ rightsIn (m.pdeOf virt) ∧
    rightsIn (m.pdeOf virt) ∩ rightsIn (m.pteOf virt) ⊆ rightsIn flags

theorem granted_iff (m : Vm) (virt flags : Word) : m.granted virt flags = rightsIn flags ↔ m.CanGrant virt flags := by
  rw [granted, CanGrant]
  split_ifs with present
  · rw [imp_iff_right present]
    exact inf_sup_eq_iff ..
  · exact iff_of_true rfl fun other => absurd other present

theorem present_of_rights {virt : Word} {r : Finset Right} (mapped : m.rights virt = some r) : isPresent (m.pdeOf virt) = true := by
  rw [rights] at mapped
  split_ifs at mapped with present
  exact (Bool.and_eq_true _ _ ▸ present).1

theorem CanGrant.of_rights {virt flags : Word} {r : Finset Right} (grants : m.CanGrant virt flags) (mapped : m.rights virt = some r) :
    r ⊆ rightsIn flags := by
  have present := present_of_rights mapped
  rw [rights] at mapped
  split_ifs at mapped with both
  exact Option.some.inj mapped ▸ (grants present).2

theorem WellFormed.withTable_rights {virt frame phys flags : Word} (wf : m.WellFormed) (absent : isPresent (m.pdeOf virt) = false)
    (unused : m.Unused frame) (aligned : Aligned frame) (physAligned : Aligned phys) {v : Word} (other : Ordinary v) :
    (m.withTable virt frame phys flags).rights v = if page v = page virt then some (rightsIn flags) else m.rights v := by
  have directory : (m.withTable virt frame phys flags).pdeOf v = _ := wf.withTable_root unused phys flags (pageDirectoryIndex v)
  have attrib : (entryPresent ||| flags).getLsbD 0 = true := by
    rw [BitVec.getLsbD_or, show entryPresent.getLsbD 0 = true from rfl, Bool.true_or]
  have made := isPresent_entryWith (m.pdeOf virt) (flags ||| entryPresent) frame (by rw [BitVec.or_comm, attrib])
  have mapped := isPresent_entryWith 0#32 (entryPresent ||| flags) phys attrib
  by_cases tables : pageDirectoryIndex v = pageDirectoryIndex virt
  · -- the new table has one entry, and nothing was mapped there before
    rw [if_pos tables] at directory
    have sameEntry : m.pdeOf v = m.pdeOf virt := by rw [pdeOf, tables, pdeOf]
    have table : (m.withTable virt frame phys flags).pteOf v =
        if pageTableIndex v = pageTableIndex virt then entryWith 0#32 (entryPresent ||| flags) phys else 0#32 := by
      rw [pteOf, tableOf, directory, frameOf_entryWith _ _ aligned]
      exact wf.withTable_frame unused phys flags (pageTableIndex_lt v)
    have pages : page v = page virt ↔ pageTableIndex v = pageTableIndex virt := by
      rw [page_eq_iff, and_iff_right tables]
    have before : m.rights v = none := by
      rw [rights, sameEntry, absent]
      rfl
    rw [rights, directory, table, before, made, Bool.true_and]
    simp only [pages]
    split_ifs with same unmapped
    · rw [rightsIn_entryWith _ _ aligned, rightsIn_entryWith _ _ physAligned, (rightsIn_present flags).1, (rightsIn_present flags).2,
        show rightsIn 0#32 = ∅ from rfl, Finset.empty_union, Finset.union_inter_cancel_right]
    · exact absurd unmapped (by decide)
    · rfl
  · -- another table: not the new frame, and in the kernel table another slot than the temporary one
    rw [if_neg tables] at directory
    rw [if_neg fun same => tables ((page_eq_iff v virt).mp same).1]
    refine rights_congr directory fun present => ?_
    have sameTable : (m.withTable virt frame phys flags).tableOf v = m.tableOf v := by
      rw [tableOf, directory]
      rfl
    have notFrame : m.tableOf v ≠ frame := unused.2 _ other.index present
    have notRoot : m.tableOf v ≠ m.cr3 := wf.ready.apart _ other.index present
    rw [pteOf, sameTable, word_withTable, if_neg, if_neg notFrame, if_neg (fun here => notRoot here.1), pteOf]
    rintro ⟨kernel, slot⟩
    have directories := wf.distinct _ other.index 768 (by decide) present wf.ready.kernel kernel
    exact other.notTempTable ((page_eq_iff v vmmngrTempTable).mpr ⟨directories, slot⟩)

theorem WellFormed.writeTable_rights (wf : m.WellFormed) {virt : Word} (ordinary : Ordinary virt)
    (present : isPresent (m.pdeOf virt) = true) (entry : Word) {v : Word} (other : Ordinary v) :
    (m.write (m.tableOf virt) (pageTableIndex virt) entry).rights v =
      if page v = page virt then if isPresent entry then some (rightsIn (m.pdeOf virt) ∩ rightsIn entry) else none
      else m.rights v := by
  have directory := wf.writeTable_pdeOf ordinary present entry
  have table := wf.writeTable_pteOf ordinary present entry
  by_cases same : page v = page virt
  · rw [if_pos same, rights_page same, rights, directory, (table virt).trans (if_pos ⟨rfl, rfl⟩), present, Bool.true_and]
  · rw [if_neg same]
    refine rights_congr (directory v) fun otherPresent => ?_
    rw [table, if_neg]
    rintro ⟨tables, indices⟩
    have directories := wf.distinct _ other.index _ ordinary.index otherPresent present tables
    exact same ((page_eq_iff v virt).mpr ⟨directories, indices⟩)

theorem WellFormed.map_rights (wf : m.WellFormed) {phys virt : Word} (physAligned : Aligned phys) (ordinary : Ordinary virt)
    (fresh : m.AllocUnused) {flags : Word} {after : Vm} (done : m.vmmngrMap 0#32 phys virt flags = some (.success, after))
    {v : Word} (other : Ordinary v) :
    after.rights v = if page v = page virt then some (m.granted virt flags) else m.rights v := by
  cases present : isPresent (m.pdeOf virt) with
  | true =>
      rw [wf.ready.map_present ordinary.index present] at done
      have mapped : isPresent (entryWith (m.pteOf virt) (entryPresent ||| flags) phys) = true := by
        refine isPresent_entryWith _ _ _ ?_
        rw [BitVec.getLsbD_or, show entryPresent.getLsbD 0 = true from rfl, Bool.true_or]
      rw [← (Prod.mk.inj (Option.some.inj done)).2, wf.writeTable_rights ordinary present _ other, if_pos mapped,
        rightsIn_entryWith _ _ physAligned, (rightsIn_present flags).1, granted, if_pos present]
  | false =>
      have spec := Pmm.allocBlock_spec wf.pmm
      by_cases refused : m.pmm.allocBlock.1 = 0#32
      · have same : m.pmm.allocBlock = (0#32, m.pmm) := Prod.ext refused (spec.keeps refused)
        rw [wf.ready.map_oom present same] at done
        cases done
      · have unused := fresh refused
        have aligned := allocBlock_aligned wf.pmm
        have notKernel : m.pmm.allocBlock.1 ≠ m.kernelTable := (unused.2 768 (by decide) wf.ready.kernel).symm
        have allocated : (m.withPmm m.pmm.allocBlock.2).WellFormed := ⟨wf.ready.congr rfl rfl, wf.distinct, spec.sound⟩
        have found : m.pmm.allocBlock = (m.pmm.allocBlock.1, m.pmm.allocBlock.2) := rfl
        rw [wf.ready.map_absent ordinary.index present found refused aligned unused.1 notKernel] at done
        have all : m.granted virt flags = rightsIn flags := if_neg (by rw [present]; decide)
        rw [← (Prod.mk.inj (Option.some.inj done)).2, allocated.withTable_rights present unused aligned physAligned other, all]
        rfl

theorem WellFormed.unmap_rights (wf : m.WellFormed) {virt : Word} (ordinary : Ordinary virt) {after : Vm}
    (done : m.vmmngrUnmap 0#32 virt = some after) {v : Word} (other : Ordinary v) :
    after.rights v = if page v = page virt then none else m.rights v := by
  rw [wf.ready.unmap ordinary.index, Option.some.injEq] at done
  split_ifs at done with mapped
  · rw [Bool.and_eq_true] at mapped
    rw [← done, wf.writeTable_rights ordinary mapped.1 _ other]
    rfl
  · rw [← done]
    split_ifs with same
    · rw [rights_page same, rights, if_neg mapped]
    · rfl

end Vm

/-! ## Runs -/

/-- The rights of the last map of `page` that no unmap follows, the latest call first; `before` is what it had when the
calls began. -/
def asked (page : Nat) (before : Option (Finset Right)) : List MapCall → Option (Finset Right)
  | [] => before
  | .map _ virt flags :: earlier => if page = Mem.page virt then some (rightsIn flags) else asked page before earlier
  | .unmap virt :: earlier => if page = Mem.page virt then none else asked page before earlier

-- with the calls that were carried out
structure CallRun where
  vm : Vm
  calls : List MapCall

def CallRun.exec (s : CallRun) (call : MapCall) : Option CallRun :=
  match call with
  | .map phys virt flags => (s.vm.vmmngrMap 0#32 phys virt flags).map fun
      | (.success, vm) => ⟨vm, call :: s.calls⟩
      | (.oom, vm) => ⟨vm, s.calls⟩
  | .unmap virt => (s.vm.vmmngrUnmap 0#32 virt).map fun vm => ⟨vm, call :: s.calls⟩

def mapCalls : Machine CallRun MapCall where
  Legal s call := call.Legal ⟨s.vm, []⟩
  step := CallRun.exec

def MapCall.Grants (m : Vm) : MapCall → Prop
  | .map _ virt flags => m.CanGrant virt flags
  | .unmap _ => True

/-- Every map of the run finds a table that has the rights it asks for, and no other right of the page. -/
def grantingCalls : Machine CallRun MapCall where
  Legal s call := call.Legal ⟨s.vm, []⟩ ∧ call.Grants s.vm
  step := CallRun.exec

theorem CallRun.wellFormed {s t : CallRun} (wf : s.vm.WellFormed) {call : MapCall} (legal : call.Legal ⟨s.vm, []⟩)
    (step : s.exec call = some t) : t.vm.WellFormed := by
  cases call with
  | map phys virt flags =>
      obtain ⟨aligned, ordinary, fresh⟩ := legal
      rcases wf.map aligned ordinary fresh flags with ⟨after, done, sends⟩ | full
      · rw [exec, done] at step
        cases step
        exact sends.wellFormed
      · rw [exec, full] at step
        cases step
        exact wf
  | unmap virt =>
      obtain ⟨after, done, sends⟩ := wf.unmap legal
      rw [exec, done] at step
      cases step
      exact sends.wellFormed

/-- Every page has the rights it was last mapped with. -/
structure CallRun.Follows (start : Vm) (s : CallRun) : Prop where
  wellFormed : s.vm.WellFormed
  rights : ∀ v, Ordinary v → s.vm.rights v = asked (page v) (start.rights v) s.calls

theorem CallRun.Follows.exec {start : Vm} {s t : CallRun} (follows : s.Follows start) {call : MapCall}
    (legal : call.Legal ⟨s.vm, []⟩) (grants : call.Grants s.vm) (step : s.exec call = some t) : t.Follows start := by
  refine ⟨CallRun.wellFormed follows.wellFormed legal step, fun v other => ?_⟩
  have wf := follows.wellFormed
  cases call with
  | map phys virt flags =>
      obtain ⟨aligned, ordinary, fresh⟩ := legal
      rcases wf.map aligned ordinary fresh flags with ⟨after, done, -⟩ | full
      · rw [CallRun.exec, done] at step
        cases step
        rw [wf.map_rights aligned ordinary fresh done other, (s.vm.granted_iff virt flags).mpr grants, asked, follows.rights v other]
      · rw [CallRun.exec, full] at step
        cases step
        exact follows.rights v other
  | unmap virt =>
      obtain ⟨after, done, -⟩ := wf.unmap legal
      rw [CallRun.exec, done] at step
      cases step
      rw [wf.unmap_rights legal done other, asked, follows.rights v other]

theorem follows_of_reaches {start : Vm} (wf : start.WellFormed) {s : CallRun} (run : grantingCalls.Reaches ⟨start, []⟩ s) :
    s.Follows start := by
  refine run.invariant (I := CallRun.Follows start) ?_ ⟨wf, fun _ _ => rfl⟩
  intro s call t follows legal step
  exact follows.exec legal.1 legal.2 step

theorem wellFormed_of_calls {start : Vm} (wf : start.WellFormed) {s : CallRun} (run : mapCalls.Reaches ⟨start, []⟩ s) :
    s.vm.WellFormed :=
  run.invariant (I := fun s => s.vm.WellFormed) (fun _ _ _ wf legal step => CallRun.wellFormed wf legal step) wf

/-- A map sets the rights of its page to those it is given, and leaves every other page what it has. -/
def Vm.GrantsExactly (m after : Vm) (virt flags : Word) : Prop :=
  after.rights virt = some (rightsIn flags) ∧ ∀ v, Ordinary v → page v ≠ page virt → after.rights v = m.rights v

theorem mapping_grants_iff (start : Vm) (wf : start.WellFormed) :
    (∀ s, grantingCalls.Reaches ⟨start, []⟩ s → ∀ v, Ordinary v → s.vm.rights v = asked (page v) (start.rights v) s.calls) ∧
      ∀ s, mapCalls.Reaches ⟨start, []⟩ s → ∀ phys virt flags, Aligned phys → Ordinary virt → s.vm.AllocUnused →
        ∀ after, s.vm.vmmngrMap 0#32 phys virt flags = some (.success, after) →
          (s.vm.GrantsExactly after virt flags ↔ s.vm.CanGrant virt flags) := by
  refine ⟨fun s run => (follows_of_reaches wf run).rights, ?_⟩
  intro s run phys virt flags aligned ordinary fresh after done
  have rights : ∀ v, Ordinary v → _ := fun v other => (wellFormed_of_calls wf run).map_rights aligned ordinary fresh done other
  have own := rights virt ordinary
  rw [if_pos rfl] at own
  rw [← s.vm.granted_iff]
  constructor
  · rintro ⟨exactly, -⟩
    exact Option.some.inj (own.symm.trans exactly)
  · intro same
    exact ⟨own.trans (congrArg some same), fun v other apart => (rights v other).trans (if_neg apart)⟩

theorem writable_page : ∃ s, grantingCalls.Reaches ⟨bareDirectory, []⟩ s ∧ s.calls = [.map 0x7000#32 0xc0005000#32 2#32] ∧
    s.vm.pmm = bareDirectory.pmm := by
  have ordinary : Ordinary 0xc0005000#32 := ⟨by decide, by decide, by decide⟩
  have legal : (MapCall.map 0x7000#32 0xc0005000#32 2#32).Legal ⟨bareDirectory, []⟩ := ⟨rfl, ordinary, fun full => absurd rfl full⟩
  have grants : bareDirectory.CanGrant 0xc0005000#32 2#32 := fun _ => ⟨by decide, by decide⟩
  obtain ⟨after, mapped, pmm⟩ : ∃ after, bareDirectory.vmmngrMap 0#32 0x7000#32 0xc0005000#32 2#32 = some (.success, after) ∧
      after.pmm = bareDirectory.pmm :=
    ⟨_, bareDirectory_wellFormed.ready.map_present ordinary.index (by decide) 0x7000#32 2#32, rfl⟩
  have step : CallRun.exec ⟨bareDirectory, []⟩ (.map 0x7000#32 0xc0005000#32 2#32) =
      some ⟨after, [.map 0x7000#32 0xc0005000#32 2#32]⟩ := by
    rw [CallRun.exec, mapped]
    rfl
  exact ⟨_, (Machine.Reaches.refl (M := grantingCalls) ⟨bareDirectory, []⟩).snoc (i := .map 0x7000#32 0xc0005000#32 2#32)
    ⟨legal, grants⟩ step, rfl, pmm⟩

theorem mapping_grants_iff_kernel_page : ∃ s, grantingCalls.Reaches ⟨bareDirectory, []⟩ s ∧
    s.vm.rights 0xc0005000#32 = some {.writable} := by
  obtain ⟨s, run, calls, -⟩ := writable_page
  have rights := (mapping_grants_iff bareDirectory bareDirectory_wellFormed).1 s run 0xc0005000#32 ⟨by decide, by decide, by decide⟩
  rw [calls] at rights
  exact ⟨s, run, rights⟩

/-- Mapped again without `PTE_WRITABLE`, the page stays writable. -/
theorem remap_keeps_right : ∃ s, mapCalls.Reaches ⟨bareDirectory, []⟩ s ∧
    ∃ after, s.vm.vmmngrMap 0#32 0x7000#32 0xc0005000#32 0#32 = some (.success, after) ∧
      ¬ s.vm.GrantsExactly after 0xc0005000#32 0#32 := by
  obtain ⟨s, run, calls, pmm⟩ := writable_page
  have reached : mapCalls.Reaches ⟨bareDirectory, []⟩ s :=
    Machine.Reaches.mono (M := grantingCalls) (N := mapCalls) rfl (fun _ _ legal => legal.1) run
  have ordinary : Ordinary 0xc0005000#32 := ⟨by decide, by decide, by decide⟩
  have wf := wellFormed_of_calls bareDirectory_wellFormed reached
  have rights := (follows_of_reaches bareDirectory_wellFormed run).rights 0xc0005000#32 ordinary
  rw [calls] at rights
  have mapped : s.vm.rights 0xc0005000#32 = some {.writable} := rights
  obtain ⟨after, done⟩ : ∃ after, s.vm.vmmngrMap 0#32 0x7000#32 0xc0005000#32 0#32 = some (.success, after) :=
    ⟨_, wf.ready.map_present ordinary.index (Vm.present_of_rights mapped) 0x7000#32 0#32⟩
  refine ⟨s, reached, after, done, fun exactly => ?_⟩
  have full : s.vm.AllocUnused := fun taken => absurd (pmm ▸ rfl) taken
  have own := wf.map_rights (show Aligned 0x7000#32 from rfl) ordinary full done ordinary
  have kept := (s.vm.granted_iff _ _).mp (Option.some.inj ((own.trans (if_pos rfl)).symm.trans exactly.1))
  exact absurd (kept.of_rights mapped) (by decide)

end Kerosene.Mem
