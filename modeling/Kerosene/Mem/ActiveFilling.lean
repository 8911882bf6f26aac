import Kerosene.Mem.AddressSpace

/-!
# Filling a directory while it is active

The frames for the stack of a process are mapped with its directory active, and not always at
addresses that were empty before. The kernel heap may take frames of its own meanwhile.
-/

namespace Kerosene.Mem
open Lib Spaces

namespace Pmm
variable {start p : Pmm} {held others : List Word}

theorem HandedOut.mem_iff (accounts : start.HandedOut held p) {f : Word} (aligned : Aligned f) :
    f ∈ held ↔ p.testBit (blockOf f) = true ∧ start.testBit (blockOf f) = false := by
  refine ⟨fun member => ⟨accounts.used_bit member, accounts.fresh f member⟩, ?_⟩
  rintro ⟨used, unused⟩
  rcases (accounts.bits _).mp used with before | listed
  · rw [unused] at before
    cases before
  · obtain ⟨g, member, same⟩ := List.mem_map.mp listed
    rwa [← (accounts.aligned g member).eq_of_block aligned same]

theorem HandedOut.unique (accounts : start.HandedOut held p) (other : start.HandedOut others p) : held.Perm others := by
  refine (List.perm_ext_iff_of_nodup accounts.nodup other.nodup).mpr fun f => ?_
  constructor
  · intro member
    have aligned := accounts.aligned f member
    exact (other.mem_iff aligned).mpr ((accounts.mem_iff aligned).mp member)
  · intro member
    have aligned := other.aligned f member
    exact (accounts.mem_iff aligned).mpr ((other.mem_iff aligned).mp member)

theorem HandedOut.rebase (accounts : start.HandedOut (others ++ held) p) :
    ∃ start' : Pmm, start'.HandedOut held p ∧ ∀ b, start.testBit b = true → start'.testBit b = true := by
  have given : start.HandedOut others (held.foldl freeBlock p) := accounts.giveAll List.perm_append_comm
  have blocks := accounts.blocks_nodup
  rw [List.map_append] at blocks
  refine ⟨held.foldl freeBlock p, ⟨accounts.sound, ?_, accounts.nodup.of_append_right, ?_, ?_, ?_, ?_, fun b => ?_⟩, ?_⟩
  · rw [accounts.total, given.total]
  · exact fun f member => accounts.aligned f (List.mem_append_right _ member)
  · exact fun f member => accounts.nonzero f (List.mem_append_right _ member)
  · intro f member
    rw [given.total]
    exact accounts.inside f (List.mem_append_right _ member)
  · intro f member
    have unused := accounts.fresh f (List.mem_append_right _ member)
    have notOthers : blockOf f ∉ others.map blockOf := fun listed =>
      List.disjoint_of_nodup_append blocks listed (List.mem_map_of_mem member)
    cases used : (held.foldl freeBlock p).testBit (blockOf f) with
    | false => rfl
    | true =>
        rcases (given.bits _).mp used with before | listed
        · rw [unused] at before
          cases before
        · exact absurd listed notOthers
  · rw [accounts.bits, given.bits, List.map_append, List.mem_append, or_assoc]
  · exact fun b used => (given.bits b).mpr (.inl used)

end Pmm

/-- Work that the kernel does for itself: it may take frames, and it leaves the user half of the
directory alone. -/
structure Vm.Elsewhere (pd : Word) (dirs : List Word) (slots : Word) (m m' : Vm) : Prop where
  root : m'.cr3 = m.cr3
  housed : m'.Housed (pd :: dirs) slots
  entries : ∀ i < 768, m'.word pd i = m.word pd i
  tables : ∀ i < 768, m.word pd i ≠ 0#32 → m'.word (frameOf (m.word pd i)) = m.word (frameOf (m.word pd i))
  taken : ∀ start held, Pmm.HandedOut start held m.pmm → ∃ others, Pmm.HandedOut start (others ++ held) m'.pmm

theorem Vm.Elsewhere.refl {pd : Word} {dirs : List Word} {slots : Word} {m : Vm} (housed : m.Housed (pd :: dirs) slots) :
    m.Elsewhere pd dirs slots m :=
  ⟨rfl, housed, fun _ _ => rfl, fun _ _ _ => rfl, fun _ _ accounts => ⟨[], accounts⟩⟩

theorem Vm.Elsewhere.freedFrames {pd : Word} {dirs : List Word} {slots : Word} {m m' : Vm}
    (elsewhere : m.Elsewhere pd dirs slots m') : m'.freedFrames pd = m.freedFrames pd :=
  freedFrames_congr fun i inside => tableFrames_congr (elsewhere.entries i inside) (elsewhere.tables i inside)

namespace AddressSpace
variable {start : Pmm} {dirs : List Word} {slots : Word} {s : AddressSpace}

theorem Populated.elsewhere (populated : Populated start dirs slots s) {vm : Vm}
    (elsewhere : s.vm.Elsewhere s.pd dirs slots vm) {held : List Word} (obtained : start.HandedOut held s.vm.pmm) :
    ∃ start', Populated start' dirs slots { s with vm := vm } ∧ start'.HandedOut held vm.pmm := by
  obtain ⟨others, accounts⟩ := elsewhere.taken start held obtained
  obtain ⟨start', handed, used⟩ := accounts.rebase
  refine ⟨start', ⟨elsewhere.housed, ?_, used _ populated.slotsUsed, fun i inside => ?_, fun i inside => ?_, ?_⟩, handed⟩
  · rw [elsewhere.root]
    exact populated.inactive
  · rw [elsewhere.entries i inside]
    exact populated.tables i inside
  · rw [elsewhere.entries i inside]
    intro entry
    rw [elsewhere.tables i inside entry]
    exact populated.entries i inside entry
  · rw [elsewhere.freedFrames]
    exact handed.perm (obtained.unique populated.accounts)

end AddressSpace

/-! ## One page -/

namespace Vm

/-- The entries for the pages around `virt`, which are zero as long as there is no table. -/
def tableWord (m : Vm) (pd virt : Word) (k : Nat) : Word :=
  if isPresent (m.word pd (pageDirectoryIndex virt)) then m.word (m.tableIn pd virt) k else 0#32

/-- The frame that `vmmngr_map` takes for a table. -/
def tableTaken (m : Vm) (pd virt : Word) : List Word :=
  if isPresent (m.word pd (pageDirectoryIndex virt)) then []
  else if m.pmm.allocBlock.1 = 0#32 then [] else [m.pmm.allocBlock.1]

/-- There is a table for `virt`, or a frame for one. -/
def HasTable (m : Vm) (pd virt : Word) : Prop :=
  isPresent (m.word pd (pageDirectoryIndex virt)) = true ∨ m.pmm.allocBlock.1 ≠ 0#32

end Vm

namespace AddressSpace
variable {start : Pmm} {dirs : List Word} {slots : Word} {s : AddressSpace} {frame virt : Word}

/-- What a map with the directory active leaves; the space is seen from the directory that was
active before. -/
structure Remapped (start : Pmm) (dirs : List Word) (slots : Word) (s : AddressSpace) (frame virt : Word) (vm : Vm) :
    Prop where
  root : vm.cr3 = s.pd
  populated : Populated start dirs slots { s with
    vm := vm.vmmngrSwitchPageDirectory s.vm.cr3
    spare := mappedFrame (s.vm.tableWord s.pd virt (pageTableIndex virt)) ++ s.spare.erase frame
    pages := page virt :: s.pages }
  present : isPresent (vm.word s.pd (pageDirectoryIndex virt)) = true
  others : ∀ k < 1024, k ≠ pageTableIndex virt → vm.tableWord s.pd virt k = s.vm.tableWord s.pd virt k
  taken : ∀ held, start.HandedOut held s.vm.pmm → start.HandedOut (s.vm.tableTaken s.pd virt ++ held) vm.pmm

theorem Populated.switched (populated : Populated start dirs slots s) :
    (s.vm.vmmngrSwitchPageDirectory s.pd).Housed (s.pd :: dirs) slots :=
  populated.housed.switch List.mem_cons_self

section Map
variable (populated : Populated start dirs slots s) (spare : frame ∈ s.spare) (user : virt < kernelStart) (flags : Word)
include populated spare user

theorem Populated.remap_present (present : isPresent (s.vm.word s.pd (pageDirectoryIndex virt)) = true) :
    ∃ vm, (s.vm.vmmngrSwitchPageDirectory s.pd).vmmngrMap 0#32 frame virt flags = some (.success, vm) ∧
      Remapped start dirs slots s frame virt vm := by
  have index := userAddr_index user
  have ready := populated.switched.ready
  have mapped := ready.map_present (by omega) present frame flags
  have set := populated.setPage spare user flags present
  have word : s.vm.tableWord s.pd virt (pageTableIndex virt) = s.vm.word (s.vm.tableIn s.pd virt) (pageTableIndex virt) := by
    rw [Vm.tableWord, if_pos present]
  have notMem : s.vm.tableIn s.pd virt ∉ s.pd :: dirs :=
    populated.housed.apart s.pd List.mem_cons_self _ (by omega) present
  have directory : ∀ entry, (s.vm.write (s.vm.tableIn s.pd virt) (pageTableIndex virt) entry).word s.pd = s.vm.word s.pd := by
    intro entry
    refine Vm.word_write_frame ?_ _ _ _
    rintro same
    exact notMem (same ▸ List.mem_cons_self)
  have others : ∀ entry k, k ≠ pageTableIndex virt →
      (s.vm.write (s.vm.tableIn s.pd virt) (pageTableIndex virt) entry).tableWord s.pd virt k = s.vm.tableWord s.pd virt k := by
    intro entry k other
    have table : (s.vm.write (s.vm.tableIn s.pd virt) (pageTableIndex virt) entry).tableIn s.pd virt = s.vm.tableIn s.pd virt :=
      congrArg frameOf (congrFun (directory entry) _)
    rw [Vm.tableWord, Vm.tableWord, table, congrFun (directory entry), if_pos present, if_pos present, Vm.word_write,
      if_neg fun h => other h.2]
  refine ⟨_, mapped, rfl, ?_, ?_, fun k _ other => others _ k other, fun held handed => ?_⟩
  · rw [word]
    exact set
  · exact (congrArg (isPresent ·) (congrFun (directory _) _)).trans present
  · rw [Vm.tableTaken, if_pos present]
    exact handed

theorem Populated.remap_absent (absent : isPresent (s.vm.word s.pd (pageDirectoryIndex virt)) = false)
    (found : s.vm.pmm.allocBlock.1 ≠ 0#32) :
    ∃ vm, (s.vm.vmmngrSwitchPageDirectory s.pd).vmmngrMap 0#32 frame virt flags = some (.success, vm) ∧
      Remapped start dirs slots s frame virt vm := by
  have index := userAddr_index user
  have switched := populated.switched
  have notMem := populated.housed.alloc_notMem found
  have notSlots := populated.housed.alloc_notSlots found
  have mapped := switched.ready.map_absent (by omega) absent (Prod.eta _).symm found
    (Vm.allocBlock_aligned populated.housed.pmm) (fun same => notMem (same ▸ List.mem_cons_self))
    (by rw [switched.kernelTable]; exact notSlots) frame flags
  have inactive := populated.map_absent spare user flags absent found
  set vm := ((s.vm.vmmngrSwitchPageDirectory s.pd).withPmm s.vm.pmm.allocBlock.2).withTable virt s.vm.pmm.allocBlock.1
    frame flags with vmDef
  have zero : ∀ k, s.vm.tableWord s.pd virt k = 0#32 := by
    intro k
    rw [Vm.tableWord, absent, if_neg Bool.false_ne_true]
  have words : ∀ g, g ≠ slots → vm.word g =
      ((s.vm.withPmm s.vm.pmm.allocBlock.2).withTableIn s.pd virt s.vm.pmm.allocBlock.1 frame flags).word g := by
    intro g other
    rw [vmDef, Vm.withTable, Vm.withTableIn,
      Vm.word_shut_frame (by rw [Vm.kernelTable_withPmm, populated.housed.kernelTable]; exact other),
      Vm.word_write_frame (by rw [Vm.kernelTable_withPmm, switched.kernelTable]; exact other)]
    rfl
  have directory : vm.word s.pd (pageDirectoryIndex virt) =
      entryWith (s.vm.word s.pd (pageDirectoryIndex virt)) (flags ||| entryPresent) s.vm.pmm.allocBlock.1 := by
    have notPd : s.pd ≠ slots := fun same => populated.housed.slots_notMem (same ▸ List.mem_cons_self)
    rw [words _ notPd, populated.housed.word_withTableIn found virt frame flags List.mem_cons_self, if_pos ⟨rfl, rfl⟩]
  have present : isPresent (vm.word s.pd (pageDirectoryIndex virt)) = true := by
    rw [directory]
    exact isPresent_entryWith _ _ _ (by rw [BitVec.or_comm]; exact getLsbD_present_or flags)
  have table : vm.tableIn s.pd virt = s.vm.pmm.allocBlock.1 := by
    rw [Vm.tableIn, directory]
    exact frameOf_entryWith _ _ (Vm.allocBlock_aligned populated.housed.pmm)
  refine ⟨vm, mapped, rfl, ?_, present, fun k below other => ?_, fun held handed => ?_⟩
  · rw [zero]
    exact inactive.slotsOnly rfl rfl words
  · rw [zero, Vm.tableWord, if_pos present, table, words _ notSlots, Vm.withTableIn,
      Vm.word_shut_frame (by rw [Vm.kernelTable_withPmm, populated.housed.kernelTable]; exact notSlots), Vm.word_setWords,
      if_pos rfl, Vm.newTable, if_neg other, if_pos below]
  · have taken := handed.take (Pmm.allocBlock_spec populated.housed.pmm) found
    rw [framesFrom_one] at taken
    rw [Vm.tableTaken, absent, if_neg Bool.false_ne_true, if_neg found]
    exact taken

theorem Populated.remap (table : s.vm.HasTable s.pd virt) :
    ∃ vm, (s.vm.vmmngrSwitchPageDirectory s.pd).vmmngrMap 0#32 frame virt flags = some (.success, vm) ∧
      Remapped start dirs slots s frame virt vm := by
  cases present : isPresent (s.vm.word s.pd (pageDirectoryIndex virt)) with
  | true => exact populated.remap_present spare user flags present
  | false =>
      refine populated.remap_absent spare user flags present (table.resolve_left ?_)
      rw [present]
      exact Bool.false_ne_true

omit spare user flags in
theorem Populated.remap_oom (frame flags : Word) (table : ¬ s.vm.HasTable s.pd virt) :
    (s.vm.vmmngrSwitchPageDirectory s.pd).vmmngrMap 0#32 frame virt flags =
      some (.oom, s.vm.vmmngrSwitchPageDirectory s.pd) ∧ s.vm.tableTaken s.pd virt = [] := by
  rw [Vm.HasTable, not_or, not_not, Bool.not_eq_true] at table
  obtain ⟨absent, refused⟩ := table
  have full : s.vm.pmm.allocBlock = (0#32, s.vm.pmm) :=
    Prod.ext refused ((Pmm.allocBlock_spec populated.housed.pmm).keeps refused)
  refine ⟨populated.switched.ready.map_oom absent full frame flags, ?_⟩
  rw [Vm.tableTaken, absent, if_neg Bool.false_ne_true, if_pos refused]

end Map

end AddressSpace
end Kerosene.Mem
