import Kerosene.Mem.Directories

/-!
# Looking an address up in an inactive directory

`vmmngr_to_physical_addr` is asked for the same address once through the temporary slots, while
another directory is active, and once through the recursive window, after a switch.
-/

namespace Kerosene.Mem
open Lib

namespace Vm
variable {m : Vm} {dirs : List Word} {slots pd : Word}

/-- Both ways of asking answer, and answer the same. -/
def Agree (m : Vm) (pd virt : Word) : Prop :=
  ∃ phys, (m.vmmngrToPhysicalAddr pd virt).map Prod.fst = some phys ∧
    ((m.vmmngrSwitchPageDirectory pd).vmmngrToPhysicalAddr 0#32 virt).map Prod.fst = some phys

theorem Housed.toPhysicalAddr_switched (housed : m.Housed dirs slots) (member : pd ∈ dirs) (virt : Word) :
    ((m.vmmngrSwitchPageDirectory pd).vmmngrToPhysicalAddr 0#32 virt).map Prod.fst =
      some ((m.walk pd virt).getD 0#32) := by
  rw [(housed.switch member).ready.own.toPhysicalAddr]
  rfl

theorem Housed.isPresent_seenEntry (housed : m.Housed dirs slots) (member : pd ∈ dirs) (inactive : pd ≠ m.cr3)
    {virt : Word} (present : isPresent (m.word pd (pageDirectoryIndex virt)) = true) :
    isPresent (m.seenEntry pd virt) = true ↔
      isPresent (m.word (m.tableIn pd virt) (pageTableIndex virt)) = true ∨
        page virt = page vmmngrTempTable ∨ page virt = page vmmngrTempPd := by
  have foreign := housed.foreign member inactive
  by_cases slot : m.tableIn pd virt = m.kernelTable ∧ (pageTableIndex virt = 1022 ∨ pageTableIndex virt = 1023)
  · -- only entry 768 leads to the table of the slots
    have index : pageDirectoryIndex virt = 768 := by
      by_contra other
      rcases Nat.lt_or_ge (pageDirectoryIndex virt) 1023 with below | last
      · exact housed.alone pd member _ below other present (slot.1.trans housed.kernelTable)
      · have := pageDirectoryIndex_lt virt
        have isLast : pageDirectoryIndex virt = 1023 := by omega
        have isOwn := (housed.own pd member).frame
        rw [← isLast] at isOwn
        exact foreign.notTable (isOwn.symm.trans slot.1)
    have seen : isPresent (m.seenEntry pd virt) = true := by
      have shown := foreign.word_bothOpen_slot (m.tableIn pd virt) slot.2
      rwa [← slot.1] at shown
    have temporary : page virt = page vmmngrTempTable ∨ page virt = page vmmngrTempPd :=
      slot.2.imp (fun low => (page_eq_iff _ _).mpr ⟨index, low⟩) fun high => (page_eq_iff _ _).mpr ⟨index, high⟩
    exact iff_of_true seen (.inr temporary)
  · have seen : m.seenEntry pd virt = m.word (m.tableIn pd virt) (pageTableIndex virt) :=
      foreign.word_bothOpen _ _ _ slot
    rw [seen]
    refine ⟨.inl, ?_⟩
    rintro (mapped | temporary)
    · exact mapped
    · have index : pageDirectoryIndex virt = 768 :=
        temporary.elim (fun same => ((page_eq_iff _ _).mp same).1) fun same => ((page_eq_iff _ _).mp same).1
      have table : m.tableIn pd virt = m.kernelTable := by
        rw [tableIn, index, (housed.slot pd member).2, housed.kernelTable]
      refine absurd ⟨table, ?_⟩ slot
      exact temporary.imp (fun same => ((page_eq_iff _ _).mp same).2) fun same => ((page_eq_iff _ _).mp same).2

theorem walk_eq_none (m : Vm) (pd virt : Word) :
    m.walk pd virt = none ↔ ¬ (isPresent (m.word pd (pageDirectoryIndex virt)) = true ∧
      isPresent (m.word (m.tableIn pd virt) (pageTableIndex virt)) = true) := by
  simp only [walk, tableIn]
  split_ifs with directory table <;> simp_all

theorem Housed.agree_iff (housed : m.Housed dirs slots) (member : pd ∈ dirs) (inactive : pd ≠ m.cr3) (virt : Word) :
    m.Agree pd virt ↔
      m.walk pd virt = none ∧ page virt ≠ page vmmngrTempTable ∧ page virt ≠ page vmmngrTempPd := by
  have inactiveAnswer := (housed.foreign member inactive).toPhysicalAddr virt
  have activeAnswer := housed.toPhysicalAddr_switched member virt
  cases present : isPresent (m.word pd (pageDirectoryIndex virt)) with
  | false =>
      have unmapped : m.walk pd virt = none := by
        rw [walk_eq_none, present]
        simp
      have notSlot : pageDirectoryIndex virt ≠ 768 := housed.index_ne member present
      rw [present, Bool.false_and, if_neg Bool.false_ne_true] at inactiveAnswer
      rw [unmapped] at activeAnswer
      refine iff_of_true ⟨0#32, inactiveAnswer, activeAnswer⟩ ⟨unmapped, ?_, ?_⟩
      · exact fun same => notSlot ((page_eq_iff _ _).mp same).1
      · exact fun same => notSlot ((page_eq_iff _ _).mp same).1
  | true =>
      have seen := housed.isPresent_seenEntry member inactive present
      rw [present, Bool.true_and] at inactiveAnswer
      have absent := walk_eq_none m pd virt
      rw [and_iff_right present] at absent
      constructor
      · rintro ⟨phys, answer, _⟩
        rw [inactiveAnswer] at answer
        have closed : ¬ isPresent (m.seenEntry pd virt) = true := by
          intro found
          rw [if_pos found] at answer
          cases answer
        rw [seen, not_or, not_or] at closed
        exact ⟨absent.mpr closed.1, closed.2⟩
      · rintro ⟨unmapped, notTemporary⟩
        have closed : ¬ isPresent (m.seenEntry pd virt) = true := by
          rw [seen, not_or, not_or]
          exact ⟨absent.mp unmapped, notTemporary⟩
        rw [if_neg closed] at inactiveAnswer
        rw [unmapped] at activeAnswer
        exact ⟨0#32, inactiveAnswer, activeAnswer⟩

end Vm

/-! ## Runs -/

inductive DirectoryCall where
  | switch (dir : Word)
  | newDirectory
  | map (dir phys virt flags : Word)
  | unmap (dir virt : Word)

namespace Spaces
variable {s t : Spaces}

-- the active directory is named by NULL, any other by its address
def named (s : Spaces) (dir : Word) : Word := if dir = s.vm.cr3 then 0#32 else dir

def execOn (s : Spaces) : DirectoryCall → Option Spaces
  | .switch dir => s.exec (.switch dir)
  | .newDirectory => s.exec .newDirectory
  | .map dir phys virt flags =>
      (s.vm.vmmngrMap (s.named dir) phys virt flags).map fun | (_, vm) => { s with vm := vm }
  | .unmap dir virt => (s.vm.vmmngrUnmap (s.named dir) virt).map fun vm => { s with vm := vm }

def LegalOn (s : Spaces) : DirectoryCall → Prop
  | .switch dir => dir ∈ s.dirs
  | .newDirectory => True
  | .map dir _ virt _ | .unmap dir virt => dir ∈ s.dirs ∧ Ordinary virt

def directories : Machine Spaces DirectoryCall where
  Legal := LegalOn
  step := execOn

structure Kept (slots : Word) (s : Spaces) : Prop where
  housed : s.vm.Housed s.dirs slots
  kernel : s.kernelPd ∈ s.dirs

theorem Kept.exec {slots : Word} (kept : Kept slots s) {call : DirectoryCall} (legal : s.LegalOn call)
    (step : s.execOn call = some t) : Kept slots t := by
  cases call with
  | switch dir =>
      cases step
      exact ⟨kept.housed.switch legal, kept.kernel⟩
  | newDirectory =>
      simp only [execOn, Spaces.exec] at step
      by_cases refused : s.vm.pmm.allocBlock.1 = 0#32
      · have full : s.vm.pmm.allocBlock = (0#32, s.vm.pmm) :=
          Prod.ext refused ((Pmm.allocBlock_spec kept.housed.pmm).keeps refused)
        rw [Vm.allocPageDirectory_none full] at step
        cases step
        exact kept
      · rw [kept.housed.allocPageDirectory kept.kernel refused, Option.map_some, if_neg refused] at step
        cases step
        exact ⟨kept.housed.fresh kept.kernel refused, List.mem_cons_of_mem _ kept.kernel⟩
  | map dir phys virt flags =>
      obtain ⟨member, ordinary⟩ := legal
      obtain ⟨err, vm, mapped, housed⟩ : ∃ err vm, s.vm.vmmngrMap (s.named dir) phys virt flags = some (err, vm) ∧
          vm.Housed s.dirs slots := by
        rw [named]
        split_ifs with active
        · exact kept.housed.map_active ordinary phys flags
        · exact kept.housed.map_inactive member active ordinary phys flags
      rw [execOn, mapped] at step
      cases step
      exact ⟨housed, kept.kernel⟩
  | unmap dir virt =>
      obtain ⟨member, ordinary⟩ := legal
      obtain ⟨vm, unmapped, housed⟩ : ∃ vm, s.vm.vmmngrUnmap (s.named dir) virt = some vm ∧ vm.Housed s.dirs slots := by
        rw [named]
        split_ifs with active
        · exact kept.housed.unmap_active ordinary
        · exact kept.housed.unmap_inactive member active ordinary
      rw [execOn, unmapped] at step
      cases step
      exact ⟨housed, kept.kernel⟩

theorem directories_snoc {u : Spaces} (run : directories.Reaches s t) {c : DirectoryCall} (legal : t.LegalOn c)
    (step : t.execOn c = some u) : directories.Reaches s u :=
  run.snoc legal step

theorem kept_of_reaches {vm : Vm} (booted : vm.Housed [vm.cr3] vm.kernelTable)
    (run : directories.Reaches (started vm) s) : Kept vm.kernelTable s := by
  refine run.invariant (I := Kept vm.kernelTable) ?_ ⟨booted, List.mem_singleton_self _⟩
  intro s call t kept legal step
  exact kept.exec legal step

/-- After any calls on any directories, a directory that is not active answers as it would when
active exactly for the addresses that it does not map and that are not in the temporary slots. -/
theorem inactive_translation_agrees_iff (vm : Vm) (booted : vm.Housed [vm.cr3] vm.kernelTable) (s : Spaces)
    (run : directories.Reaches (started vm) s) (pd : Word) (member : pd ∈ s.dirs) (inactive : pd ≠ s.vm.cr3)
    (virt : Word) :
    s.vm.Agree pd virt ↔
      s.vm.walk pd virt = none ∧ page virt ≠ page vmmngrTempTable ∧ page virt ≠ page vmmngrTempPd :=
  (kept_of_reaches booted run).housed.agree_iff member inactive virt

theorem bootedKernel_housed : bootedKernel.Housed [bootedKernel.cr3] bootedKernel.kernelTable := by
  have coherent := bootedKernel_booted.coherent
  refine ⟨coherent.active, ?_, coherent.own, ?_, coherent.apart, ?_, coherent.pmm, coherent.dirsUsed, coherent.tablesUsed⟩
  all_goals
    intro d listed
    cases List.mem_singleton.mp listed
  · decide
  · exact ⟨coherent.slot _ coherent.active, rfl⟩
  · exact fun k below other present => absurd (bareDirectory_present below present) other

-- the directory of a new process, which is not yet active
def processMade : Spaces := ⟨bootedKernel.fresh bootedKernel.cr3, bootedKernel.cr3, [0x3000#32, bootedKernel.cr3]⟩

theorem processMade_reached : directories.Reaches (started bootedKernel) processMade := by
  have made := bootedKernel_housed.allocPageDirectory (List.mem_singleton_self _) (by decide)
  have first : bootedKernel.pmm.allocBlock.1 = 0x3000#32 := by decide
  rw [first] at made
  have step : (started bootedKernel).execOn .newDirectory = some processMade := by
    simp only [execOn, exec, started, made, Option.map_some]
    rw [if_neg (by decide)]
    rfl
  exact directories_snoc (c := .newDirectory) (.refl _) trivial step

theorem inactive_translation_agrees_iff_new_process :
    processMade.vm.Agree 0x3000#32 0x400000#32 :=
  (inactive_translation_agrees_iff bootedKernel bootedKernel_housed processMade processMade_reached 0x3000#32
    (by decide) (by decide) 0x400000#32).mpr ⟨by decide, by decide, by decide⟩

/-- A page mapped into the directory of a process cannot be looked up before the process runs. -/
theorem inactive_translation_faults :
    ∃ s, directories.Reaches (started bootedKernel) s ∧
      0x3000#32 ∈ s.dirs ∧ 0x3000#32 ≠ s.vm.cr3 ∧ ¬ s.vm.Agree 0x3000#32 0x400000#32 := by
  have kept := kept_of_reaches bootedKernel_housed processMade_reached
  have mapped := kept.housed.map_absent_eq (d := 0x3000#32) (v := 0x400000#32) (by decide) (by decide) (by decide)
    (by decide) 0x7000#32 7#32
  set vm := (processMade.vm.withPmm processMade.vm.pmm.allocBlock.2).withTableIn 0x3000#32 0x400000#32
    processMade.vm.pmm.allocBlock.1 0x7000#32 7#32 with vmDef
  have step : processMade.execOn (.map 0x3000#32 0x7000#32 0x400000#32 7#32) = some { processMade with vm := vm } := by
    have inactive : processMade.named 0x3000#32 = 0x3000#32 := by decide
    simp only [execOn, inactive, mapped, Option.map_some]
  have legal : processMade.LegalOn (.map 0x3000#32 0x7000#32 0x400000#32 7#32) :=
    ⟨by decide, ⟨by decide, by decide, by decide⟩⟩
  have run := directories_snoc processMade_reached legal step
  refine ⟨_, run, by decide, by decide, fun agree => ?_⟩
  have unmapped := ((kept_of_reaches bootedKernel_housed run).housed.agree_iff (by decide) (by decide)
    0x400000#32).mp agree
  have walked : vm.walk 0x3000#32 0x400000#32 = some 0x7000#32 := by
    rw [vmDef]
    decide
  rw [walked] at unmapped
  cases unmapped.1

end Spaces
end Kerosene.Mem
