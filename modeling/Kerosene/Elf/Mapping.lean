import Kerosene.Elf.Loader
import Kerosene.Mem.AddressSpace
import Mathlib.Data.Finset.Card
import Mathlib.Data.Finset.Image

/-!
# Mapping the pages of a program
-/

namespace Kerosene.Mem.AddressSpace
open Spaces
variable {start : Pmm} {dirs : List Word} {slots : Word} {s t : AddressSpace} {before : Vm}

/-- The kernel half of the directory, and every frame that was in use at the start, are as before. -/
structure Spared (start : Pmm) (before : Vm) (pd : Word) (vm : Vm) : Prop where
  directory : ∀ k, 768 ≤ k → vm.word pd k = before.word pd k
  used : ∀ g, start.testBit (blockOf g) = true → vm.word g = before.word g

/-- Both temporary slots are closed. -/
def Closed (vm : Vm) (slots : Word) : Prop := vm.word slots 1022 = 0#32 ∧ vm.word slots 1023 = 0#32

/-- The table of the page exists, or there is a frame for it. -/
def HasRoom (s : AddressSpace) (virt : Word) : Prop :=
  isPresent (s.vm.word s.pd (pageDirectoryIndex virt)) = true ∨ s.vm.pmm.allocBlock.1 ≠ 0#32

theorem word_shut_closed {m vm : Vm} (closed : Closed before slots) (same : vm.word slots = before.word slots)
    (kernel : m.kernelTable = slots) : (vm.shut m.kernelTable).word slots = before.word slots := by
  funext k
  rw [Vm.word_shut, kernel, same]
  split_ifs with slot
  · rcases slot.2 with rfl | rfl
    · exact closed.1.symm
    · exact closed.2.symm
  · rfl

section Map
variable (populated : Populated start dirs slots s) (closed : Closed before slots) (spared : Spared start before s.pd s.vm)
include populated

theorem Populated.not_used {f : Word} (member : f ∈ s.vm.freedFrames s.pd ++ s.spare) {g : Word}
    (used : start.testBit (blockOf g) = true) : g ≠ f := by
  rintro rfl
  rw [populated.accounts.fresh _ member] at used
  cases used

omit populated in
theorem pd_mem (s : AddressSpace) : s.pd ∈ s.vm.freedFrames s.pd ++ s.spare :=
  List.mem_append_left _ (Vm.mem_freedFrames.mpr (.inl rfl))

include closed spared

theorem Populated.spared_of_words {vm : Vm} (directory : ∀ k, 768 ≤ k → vm.word s.pd k = s.vm.word s.pd k)
    (slotWords : vm.word slots = before.word slots)
    (others : ∀ g, start.testBit (blockOf g) = true → g ≠ slots → vm.word g = s.vm.word g) :
    Spared start before s.pd vm := by
  refine ⟨fun k high => (directory k high).trans (spared.directory k high), fun g used => ?_⟩
  by_cases isSlots : g = slots
  · subst isSlots
    exact slotWords
  · exact (others g used isSlots).trans (spared.used g used)

omit closed spared in
theorem Populated.writeTable_directory {virt : Word} (user : virt < kernelStart)
    (present : isPresent (s.vm.word s.pd (pageDirectoryIndex virt)) = true) (entry : Word) :
    ((s.vm.write (s.vm.tableIn s.pd virt) (pageTableIndex virt) entry).shut s.vm.kernelTable).word s.pd = s.vm.word s.pd := by
  have index := userAddr_index user
  have slotsNe : slots ≠ s.pd := populated.not_used (pd_mem s) populated.slotsUsed
  rw [Vm.word_shut_frame (by rw [populated.housed.kernelTable]; exact slotsNe.symm), Vm.word_write_frame]
  rintro same
  have apart := populated.housed.apart s.pd List.mem_cons_self _ (by omega) present
  rw [show frameOf (s.vm.word s.pd (pageDirectoryIndex virt)) = s.pd from same.symm] at apart
  exact apart List.mem_cons_self

omit closed spared in
theorem Populated.map_of_room {virt frame flags : Word} {err : MemErr} {vm : Vm}
    (room : s.HasRoom virt)
    (mapped : s.vm.vmmngrMap s.pd frame virt flags = some (err, vm)) : err = .success := by
  have member : s.pd ∈ s.pd :: dirs := List.mem_cons_self
  cases present : isPresent (s.vm.word s.pd (pageDirectoryIndex virt)) with
  | true => exact (populated.housed.foreign member populated.inactive).map_of_present present mapped
  | false =>
      have found := room.resolve_left (by rw [present]; decide)
      rw [populated.housed.map_absent_eq member populated.inactive present found] at mapped
      cases mapped
      rfl

/-- A page whose table exists. -/
theorem Populated.map_of_table {virt : Word} (user : virt < kernelStart)
    (present : isPresent (s.vm.word s.pd (pageDirectoryIndex virt)) = true) (frame flags : Word) :
    ∃ vm, s.vm.vmmngrMap s.pd frame virt flags = some (.success, vm) ∧ Spared start before s.pd vm ∧
      vm.pmm = s.vm.pmm ∧ vm.word s.pd = s.vm.word s.pd := by
  have index := userAddr_index user
  have member : s.pd ∈ s.pd :: dirs := List.mem_cons_self
  have foreign := populated.housed.foreign member populated.inactive
  have kernel := populated.housed.kernelTable
  have reachable := populated.housed.reachable member (userAddr_ordinary user) present
  have table : s.vm.tableIn s.pd virt ∈ s.vm.freedFrames s.pd ++ s.spare :=
    List.mem_append_left _ (Vm.table_mem_freedFrames index (isPresent_ne present))
  have words : ∀ entry g, start.testBit (blockOf g) = true →
      (s.vm.write (s.vm.tableIn s.pd virt) (pageTableIndex virt) entry).word g = s.vm.word g := fun entry g used =>
    Vm.word_write_frame (populated.not_used table used) _ _ _
  have directory := populated.writeTable_directory user present
    (entryWith (s.vm.word (s.vm.tableIn s.pd virt) (pageTableIndex virt)) (entryPresent ||| flags) frame)
  refine ⟨_, foreign.map_present reachable frame flags,
    populated.spared_of_words closed spared (fun k _ => congrFun directory k) ?_ fun g used other => ?_, rfl, directory⟩
  · exact word_shut_closed closed ((words _ _ populated.slotsUsed).trans (spared.used slots populated.slotsUsed)) kernel
  · rw [Vm.word_shut_frame (by rw [kernel]; exact other), words _ g used]

/-- A page that needs a table for which there is no frame. -/
theorem Populated.map_of_none {virt : Word} (absent : isPresent (s.vm.word s.pd (pageDirectoryIndex virt)) = false)
    (refused : s.vm.pmm.allocBlock.1 = 0#32) (frame flags : Word) :
    ∃ vm, s.vm.vmmngrMap s.pd frame virt flags = some (.oom, vm) ∧ Spared start before s.pd vm := by
  have foreign := populated.housed.foreign List.mem_cons_self populated.inactive
  have kernel := populated.housed.kernelTable
  have slotsNe : slots ≠ s.pd := populated.not_used (pd_mem s) populated.slotsUsed
  have full : s.vm.pmm.allocBlock = (0#32, s.vm.pmm) :=
    Prod.ext refused ((Pmm.allocBlock_spec populated.housed.pmm).keeps refused)
  have words : ∀ g, g ≠ slots → ((s.vm.withPmm s.vm.pmm).write s.vm.kernelTable 1023 0#32).word g = s.vm.word g :=
    fun g other => Vm.word_write_frame (by rw [kernel]; exact other) _ _ _
  refine ⟨_, foreign.map_oom absent full frame flags,
    populated.spared_of_words closed spared (fun k _ => congrFun (words _ slotsNe.symm) k) ?_ fun g _ other => words g other⟩
  funext k
  rw [Vm.word_write, kernel]
  split_ifs with slot
  · rw [slot.2]
    exact closed.2.symm
  · exact congrFun (spared.used slots populated.slotsUsed) k

/-- A page that gets a new table. -/
theorem Populated.map_of_new {virt : Word} (user : virt < kernelStart)
    (absent : isPresent (s.vm.word s.pd (pageDirectoryIndex virt)) = false)
    (found : s.vm.pmm.allocBlock.1 ≠ 0#32) (frame flags : Word) :
    ∃ vm, s.vm.vmmngrMap s.pd frame virt flags = some (.success, vm) ∧ Spared start before s.pd vm ∧
      vm.pmm = s.vm.pmm.allocBlock.2 ∧
      ∀ k, isPresent (vm.word s.pd k) = true ↔ isPresent (s.vm.word s.pd k) = true ∨ k = pageDirectoryIndex virt := by
  have index := userAddr_index user
  have member : s.pd ∈ s.pd :: dirs := List.mem_cons_self
  have kernel := populated.housed.kernelTable
  have taken := populated.accounts.take (Pmm.allocBlock_spec populated.housed.pmm) found
  rw [framesFrom_one] at taken
  have notNew : ∀ g, start.testBit (blockOf g) = true → g ≠ s.vm.pmm.allocBlock.1 := by
    rintro g used rfl
    rw [taken.fresh _ List.mem_cons_self] at used
    cases used
  have words : ∀ entry row g, start.testBit (blockOf g) = true →
      (((s.vm.withPmm s.vm.pmm.allocBlock.2).write s.pd (pageDirectoryIndex virt) entry).setWords
        s.vm.pmm.allocBlock.1 row).word g = s.vm.word g := by
    intro entry row g used
    rw [Vm.word_setWords, if_neg (notNew g used), Vm.word_write_frame (populated.not_used (pd_mem s) used)]
    rfl
  have directory := populated.housed.word_withTableIn (p := s.pd) found virt frame flags member
  simp only [true_and] at directory
  refine ⟨_, populated.housed.map_absent_eq member populated.inactive absent found frame flags,
    populated.spared_of_words closed spared (fun k high => ?_) ?_ fun g used other => ?_, rfl, fun k => ?_⟩
  · rw [directory, if_neg (by omega)]
  · exact word_shut_closed (m := s.vm.withPmm s.vm.pmm.allocBlock.2) closed
      ((words _ _ _ populated.slotsUsed).trans (spared.used slots populated.slotsUsed)) kernel
  · rw [Vm.withTableIn, Vm.word_shut_frame (by rw [Vm.kernelTable_withPmm, kernel]; exact other), words _ _ g used]
  · rw [directory]
    split_ifs with here
    · exact iff_of_true (isPresent_entryWith _ _ _ (by rw [BitVec.or_comm]; exact getLsbD_present_or flags)) (.inr here)
    · exact (or_iff_left here).symm

end Map
end Kerosene.Mem.AddressSpace

namespace Kerosene.Elf
open Mem Mem.Spaces Mem.AddressSpace

/-- The address of page `i` from `addr` on. -/
abbrev pageAt (addr : Word) (i : Nat) : Word := addr + BitVec.ofNat 32 (i * 4096)

theorem kernelStart_toNat : kernelStart.toNat = 0xc0000000 := rfl

theorem pages_below_of_addrs {minaddr : Word} {n : Nat} (aligned : minaddr.toNat % 4096 = 0) (positive : 0 < n)
    (all : ∀ i < n, pageAt minaddr i < kernelStart) : minaddr.toNat + n * 4096 ≤ kernelStart.toNat := by
  by_contra outside
  have first := all 0 positive
  rw [BitVec.lt_def, BitVec.toNat_add, BitVec.toNat_ofNat, kernelStart_toNat] at first
  have small := minaddr.isLt
  rw [kernelStart_toNat] at outside
  have crossing := all ((0xc0000000 - minaddr.toNat) / 4096) (by omega)
  rw [BitVec.lt_def, BitVec.toNat_add, BitVec.toNat_ofNat, kernelStart_toNat] at crossing
  omega

theorem pageOf_add {minaddr : Word} {total k : Nat} (fits : minaddr.toNat + total * 4096 ≤ kernelStart.toNat) (inside : k < total) :
    pageAt minaddr k < kernelStart ∧ page (pageAt minaddr k) = minaddr.toNat / 4096 + k := by
  rw [kernelStart_toNat] at fits
  have value : (pageAt minaddr k).toNat = minaddr.toNat + k * 4096 := by
    rw [BitVec.toNat_add, BitVec.toNat_ofNat]
    omega
  rw [BitVec.lt_def, page, value, kernelStart_toNat, pageSize]
  omega

/-! ## The tables that pages need -/

/-- The empty entries of the directory under which the first `n` pages of a program lie. -/
def newTables (vm : Vm) (pd minaddr : Word) (n : Nat) : Finset Nat :=
  ((Finset.range n).image fun i => pageDirectoryIndex (pageAt minaddr i)).filter fun k =>
    isPresent (vm.word pd k) = false

namespace Load
variable {start : Pmm} {dirs : List Word} {slots : Word} {s : AddressSpace} {before : Vm} {l : Load}

theorem mapPages_log {pd phys minaddr flags : Word} {n i : Nat} :
    ∀ a ∈ l.log, a ∈ (l.mapPages pd phys minaddr flags n i).1.log := by
  induction n generalizing l i with
  | zero => exact fun _ member => member
  | succ n ih =>
      rw [mapPages]
      split
      · exact fun _ member => member
      · exact fun _ member => member
      · exact fun a member => ih a (List.mem_cons_of_mem _ member)

theorem newTables_succ (pd minaddr : Word) (n : Nat) : newTables before pd minaddr (n + 1) =
    if isPresent (before.word pd (pageDirectoryIndex (pageAt minaddr n))) = false then
      insert (pageDirectoryIndex (pageAt minaddr n)) (newTables before pd minaddr n)
    else newTables before pd minaddr n := by
  rw [newTables, Finset.range_add_one, Finset.image_insert, Finset.filter_insert]
  rfl

theorem newTables_mono (before : Vm) (pd minaddr : Word) {n k : Nat} (least : n ≤ k) :
    (newTables before pd minaddr n).card ≤ (newTables before pd minaddr k).card :=
  Finset.card_le_card (Finset.filter_subset_filter _ (Finset.image_subset_image (Finset.range_mono least)))

/-- Where the loader stands when it has mapped `i` of `total` pages, all below the kernel half. -/
structure Mapping (start : Pmm) (dirs : List Word) (slots : Word) (before : Vm) (phys minaddr : Word) (total held i : Nat)
    (s : AddressSpace) (l : Load) : Prop where
  populated : Populated start dirs slots s
  spared : Spared start before s.pd s.vm
  same : l.vm = s.vm
  user : ∀ j < i, pageAt minaddr j < kernelStart
  below : ∀ access ∈ l.log, access.addr < kernelStart
  spare : ∀ k, i ≤ k → k < total → pageAt phys k ∈ s.spare
  pages : ∀ p ∈ s.pages, p < minaddr.toNat / 4096 + i
  used : s.vm.pmm.usedBlock.toNat = held + (newTables before s.pd minaddr i).card
  present : ∀ k, isPresent (s.vm.word s.pd k) = true ↔
    isPresent (before.word s.pd k) = true ∨ k ∈ newTables before s.pd minaddr i

section Pages
variable {phys minaddr : Word} {total held i : Nat} (mapping : Mapping start dirs slots before phys minaddr total held i s l)
include mapping

theorem Mapping.newTables_present
    (present : isPresent (s.vm.word s.pd (pageDirectoryIndex (pageAt minaddr i))) = true) :
    newTables before s.pd minaddr (i + 1) = newTables before s.pd minaddr i := by
  rw [newTables_succ]
  split_ifs with absent
  · refine Finset.insert_eq_of_mem (((mapping.present _).mp present).resolve_left ?_)
    rw [absent]
    decide
  · rfl

theorem Mapping.newTables_absent
    (absent : isPresent (s.vm.word s.pd (pageDirectoryIndex (pageAt minaddr i))) = false) :
    newTables before s.pd minaddr (i + 1) = insert (pageDirectoryIndex (pageAt minaddr i)) (newTables before s.pd minaddr i) ∧
      pageDirectoryIndex (pageAt minaddr i) ∉ newTables before s.pd minaddr i := by
  have new := (mapping.present (pageDirectoryIndex (pageAt minaddr i))).not.mp (by rw [absent]; decide)
  rw [not_or, Bool.not_eq_true] at new
  exact ⟨by rw [newTables_succ, if_pos new.1], new.2⟩

theorem Mapping.fits : held + (newTables before s.pd minaddr i).card ≤ start.totalBlock.toNat := by
  rw [← mapping.used, mapping.populated.housed.pmm.used, ← mapping.populated.accounts.total]
  exact Pmm.usedBelow_le _ _

/-- There is a frame for the table of the next page, or no need of one. -/
theorem Mapping.room_iff : held + (newTables before s.pd minaddr (i + 1)).card ≤ start.totalBlock.toNat ↔
    s.HasRoom (pageAt minaddr i) := by
  have sound := mapping.populated.housed.pmm
  have used := mapping.used
  have fits := mapping.fits
  cases present : isPresent (s.vm.word s.pd (pageDirectoryIndex (pageAt minaddr i))) with
  | true =>
      rw [mapping.newTables_present present]
      exact ⟨fun _ => .inl present, fun _ => fits⟩
  | false =>
      obtain ⟨grown, new⟩ := mapping.newTables_absent present
      rw [HasRoom, present, grown, Finset.card_insert_of_notMem new, Ne, Pmm.allocBlock_refused sound, ← BitVec.toNat_inj,
        mapping.populated.accounts.total]
      simp only [Bool.false_eq_true, false_or]
      omega

/-- One page below the kernel half that has a table, or gets one. -/
theorem Mapping.next (flags : Word) (aligned : minaddr.toNat % 4096 = 0) (closed : Closed before slots)
    (distinct : ∀ j < total, ∀ k < total, pageAt phys j = pageAt phys k → j = k)
    (inside : i < total) (user : pageAt minaddr i < kernelStart) (room : s.HasRoom (pageAt minaddr i)) :
    ∃ vm t, l.vm.vmmngrMap s.pd (pageAt phys i) (pageAt minaddr i) flags = some (.success, vm) ∧ t.pd = s.pd ∧
      Mapping start dirs slots before phys minaddr total held (i + 1) t ⟨vm, .mapped (pageAt minaddr i) :: l.log⟩ := by
  have all : ∀ j < i + 1, pageAt minaddr j < kernelStart := fun j less =>
    (Nat.lt_succ_iff_lt_or_eq.mp less).elim (mapping.user j) fun same => same ▸ user
  have number := (pageOf_add (pages_below_of_addrs aligned (Nat.succ_pos i) all) (Nat.lt_succ_self i)).2
  set frame := pageAt phys i with frameDef
  set virt := pageAt minaddr i with virtDef
  have legal : s.Legal (.map frame virt flags) :=
    ⟨mapping.spare i (Nat.le_refl i) inside, user, fun listed => by
      have := mapping.pages _ listed
      omega⟩
  have done : ∃ vm, s.vm.vmmngrMap s.pd frame virt flags = some (.success, vm) ∧ Spared start before s.pd vm ∧
      vm.pmm.usedBlock.toNat = held + (newTables before s.pd minaddr (i + 1)).card ∧
      ∀ k, isPresent (vm.word s.pd k) = true ↔
        isPresent (before.word s.pd k) = true ∨ k ∈ newTables before s.pd minaddr (i + 1) := by
    cases present : isPresent (s.vm.word s.pd (pageDirectoryIndex virt)) with
    | true =>
        obtain ⟨vm, mapped, spared, pmm, directory⟩ :=
          mapping.populated.map_of_table closed mapping.spared user present frame flags
        refine ⟨vm, mapped, spared, ?_, ?_⟩
        · rw [pmm, mapping.newTables_present present, mapping.used]
        · rw [directory, mapping.newTables_present present]
          exact mapping.present
    | false =>
        have found := room.resolve_left (by rw [present]; decide)
        obtain ⟨grown, new⟩ := mapping.newTables_absent present
        obtain ⟨vm, mapped, spared, pmm, entries⟩ :=
          mapping.populated.map_of_new closed mapping.spared user present found frame flags
        have sound := mapping.populated.housed.pmm
        refine ⟨vm, mapped, spared, ?_, fun k => ?_⟩
        · rw [pmm, (Pmm.allocBlock_spec sound).used sound found, mapping.used, grown, Finset.card_insert_of_notMem new,
            Nat.add_assoc]
        · rw [entries, mapping.present, grown, Finset.mem_insert, or_assoc, or_comm (a := k = _)]
  obtain ⟨vm, mapped, spared, used, present⟩ := done
  have step : s.exec (.map frame virt flags) =
      some { s with vm := vm, spare := s.spare.erase frame, pages := page virt :: s.pages } := by
    rw [AddressSpace.exec, mapped]
    rfl
  refine ⟨vm, { s with vm := vm, spare := s.spare.erase frame, pages := page virt :: s.pages }, mapping.same ▸ mapped, rfl,
    mapping.populated.exec legal step, spared, rfl, all, ?_, fun k low high => ?_, ?_, used, present⟩
  · rintro access member
    rcases List.mem_cons.mp member with rfl | old
    · exact user
    · exact mapping.below access old
  · refine (List.mem_erase_of_ne fun equal => ?_).mpr (mapping.spare k (by omega) high)
    have := distinct k high i inside equal
    omega
  · rintro p member
    rcases List.mem_cons.mp member with rfl | old
    · omega
    · have := mapping.pages p old
      omega

end Pages

/-- How mapping the pages ends: with all of them below the kernel half, without a frame for the
table of a page, or beyond a page of the kernel half. -/
inductive Ends (start : Pmm) (dirs : List Word) (slots : Word) (before : Vm) (pd phys minaddr : Word) (total held : Nat)
    (out : Load × Option Stop) : Prop
  | mapped (t : AddressSpace) (same : t.pd = pd) (all : out.2 = none)
      (mapping : Mapping start dirs slots before phys minaddr total held total t out.1)
  | ranOut (n : Nat) (inside : n < total) (user : ∀ j < n, pageAt minaddr j < kernelStart)
      (short : start.totalBlock.toNat < held + (newTables before pd minaddr (n + 1)).card)
      (spared : Spared start before pd out.1.vm) (below : ∀ access ∈ out.1.log, access.addr < kernelStart)
      (stopped : out.2 = some (.failed .oom))
  | crossed (n : Nat) (inside : n < total) (user : ∀ j < n, pageAt minaddr j < kernelStart)
      (past : kernelStart ≤ pageAt minaddr n)
      (room : held + (newTables before pd minaddr (n + 1)).card ≤ start.totalBlock.toNat)
      (logged : out.2 = some .fault ∨ .mapped (pageAt minaddr n) ∈ out.1.log)

theorem Mapping.mapPages {phys minaddr flags : Word} {total held n i : Nat}
    (mapping : Mapping start dirs slots before phys minaddr total held i s l) (sum : i + n = total)
    (aligned : minaddr.toNat % 4096 = 0) (closed : Closed before slots)
    (distinct : ∀ j < total, ∀ k < total, pageAt phys j = pageAt phys k → j = k) :
    Ends start dirs slots before s.pd phys minaddr total held (l.mapPages s.pd phys minaddr flags n i) := by
  induction n generalizing i s l with
  | zero =>
      obtain rfl : i = total := sum
      exact .mapped s rfl rfl mapping
  | succ n ih =>
      have inside : i < total := by omega
      rw [Load.mapPages]
      by_cases room : s.HasRoom (pageAt minaddr i)
      · by_cases user : pageAt minaddr i < kernelStart
        · obtain ⟨vm, t, mapped, same, next⟩ := mapping.next flags aligned closed distinct inside user room
          rw [mapped, ← same]
          exact ih next (by omega)
        · refine .crossed i inside mapping.user (BitVec.not_lt.mp user) (mapping.room_iff.mpr room) ?_
          split
          · exact .inl rfl
          · rename_i mapped
            rw [mapping.same] at mapped
            cases mapping.populated.map_of_room room mapped
          · exact .inr (mapPages_log _ List.mem_cons_self)
      · have short := mapping.room_iff.not.mpr room
        rw [HasRoom, not_or, Bool.not_eq_true, not_not] at room
        obtain ⟨vm, mapped, spared⟩ :=
          mapping.populated.map_of_none closed mapping.spared room.1 room.2 (pageAt phys i) flags
        rw [mapping.same, mapped]
        exact .ranOut i inside mapping.user (Nat.lt_of_not_le short) spared mapping.below rfl

end Load
end Kerosene.Elf
