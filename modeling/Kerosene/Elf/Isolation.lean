import Kerosene.Elf.Mapping

/-!
# What a loaded executable can reach
-/

namespace Kerosene.Mem.AddressSpace
open Spaces
variable {start : Pmm} {dirs : List Word} {slots : Word} {s : AddressSpace} {before : Vm}

/-! ## Writing to mapped pages -/

theorem Populated.mapped_frame (populated : Populated start dirs slots s) {virt f : Word} (user : virt < kernelStart)
    (walked : s.vm.walk s.pd virt = some f) :
    f ≠ s.pd ∧ (∀ i < 768, s.vm.word s.pd i ≠ 0#32 → f ≠ frameOf (s.vm.word s.pd i)) ∧
      ∀ g, start.testBit (blockOf g) = true → g ≠ f := by
  obtain ⟨present, mapped, rfl⟩ := walk_some walked
  have index := userAddr_index user
  have entry := isPresent_ne present
  have frames : frameOf (s.vm.word (s.vm.tableIn s.pd virt) (pageTableIndex virt)) ∈
      entryFrames (s.vm.word (s.vm.tableIn s.pd virt)) :=
    mem_entryFrames.mpr ⟨_, pageTableIndex_lt virt,
      (populated.entries _ index entry _ (pageTableIndex_lt virt) (isPresent_ne mapped)).2.1, rfl⟩
  have inTable : frameOf (s.vm.word (s.vm.tableIn s.pd virt) (pageTableIndex virt)) ∈
      s.vm.tableFrames s.pd (pageDirectoryIndex virt) := by
    rw [Vm.tableFrames, if_neg entry]
    exact List.mem_append_left _ frames
  have listed : frameOf (s.vm.word (s.vm.tableIn s.pd virt) (pageTableIndex virt)) ∈
      (List.range 768).flatMap (s.vm.tableFrames s.pd) :=
    List.mem_flatMap.mpr ⟨_, List.mem_range.mpr index, inTable⟩
  have nodup := populated.accounts.nodup.of_append_left
  refine ⟨?_, fun i inside other same => ?_, fun g used => ?_⟩
  · exact fun same => List.disjoint_of_nodup_append nodup listed (List.mem_singleton.mpr same)
  · -- a frame that is also a table would be freed twice
    by_cases here : i = pageDirectoryIndex virt
    · have own := (List.nodup_flatMap.mp nodup.of_append_left).1 _ (List.mem_range.mpr index)
      rw [Vm.tableFrames, if_neg entry] at own
      rw [here] at same
      exact List.disjoint_of_nodup_append own frames (List.mem_singleton.mpr same)
    · have table := Vm.table_mem_tableFrames other
      rw [← same] at table
      exact Vm.tableFrames_disjoint nodup inside index here table inTable
  · exact populated.not_used (List.mem_append_left _ (List.mem_append_left _ listed)) used

/-- Memory while the segments are written: the directory is active and its tables are as they were. -/
structure Copying (start : Pmm) (before : Vm) (s : AddressSpace) (vm : Vm) : Prop where
  root : vm.cr3 = s.pd
  directory : vm.word s.pd = s.vm.word s.pd
  tables : ∀ i < 768, s.vm.word s.pd i ≠ 0#32 →
    vm.word (frameOf (s.vm.word s.pd i)) = s.vm.word (frameOf (s.vm.word s.pd i))
  spared : Spared start before s.pd vm

theorem Copying.walk {vm : Vm} (copying : Copying start before s vm) {virt : Word} (user : virt < kernelStart) :
    vm.walk s.pd virt = s.vm.walk s.pd virt := by
  simp only [Vm.walk, copying.directory]
  cases present : isPresent (s.vm.word s.pd (pageDirectoryIndex virt)) with
  | false => rfl
  | true => rw [copying.tables _ (userAddr_index user) (isPresent_ne present)]

theorem Copying.write {vm : Vm} (copying : Copying start before s vm) (populated : Populated start dirs slots s)
    {virt f : Word} (user : virt < kernelStart) (walked : vm.walk vm.cr3 virt = some f) (idx : Nat) (value : Word) :
    Copying start before s (vm.write f idx value) := by
  rw [copying.root, copying.walk user] at walked
  obtain ⟨notPd, notTable, notUsed⟩ := populated.mapped_frame user walked
  refine ⟨copying.root, ?_, fun i inside entry => ?_, fun k high => ?_, fun g used => ?_⟩
  · rw [Vm.word_write_frame notPd.symm, copying.directory]
  · rw [Vm.word_write_frame (notTable i inside entry).symm, copying.tables i inside entry]
  · rw [Vm.word_write_frame notPd.symm, copying.spared.directory k high]
  · rw [Vm.word_write_frame (notUsed g used), copying.spared.used g used]

end Kerosene.Mem.AddressSpace

namespace Kerosene.Elf
open Mem Mem.Spaces Mem.AddressSpace

/-- Nothing is mapped or stored in the kernel half, and the kernel's part of the directory and the
kernel's own tables are as before. -/
structure Isolated (before : Vm) (pd kernelPd : Word) (l : Load) : Prop where
  below : ∀ access ∈ l.log, access.addr < kernelStart
  directory : ∀ k, 768 ≤ k → k < 1024 → l.vm.word pd k = before.word pd k
  kernelDirectory : l.vm.word kernelPd = before.word kernelPd
  kernelTables : ∀ k, 768 ≤ k → k < 1023 → isPresent (before.word kernelPd k) = true →
    l.vm.word (frameOf (before.word kernelPd k)) = before.word (frameOf (before.word kernelPd k))

def Below (addr size : Word) : Prop := size = 0#32 ∨ addr.toNat + size.toNat ≤ kernelStart.toNat

/-- The pages of the program and its segments end below the kernel half, without wrapping around. -/
structure Plan.StaysBelow (plan : Plan) (image : Image) : Prop where
  pages : plan.minaddr.toNat + plan.requiredPages.toNat * 4096 ≤ kernelStart.toNat
  segments : ∀ i < plan.count, phField image plan.phtab i 0#32 = some elfPtLoad →
    ∀ vaddr size, phField image plan.phtab i 8#32 = some vaddr →
      phField image plan.phtab i 16#32 = some size ∨ phField image plan.phtab i 20#32 = some size → Below vaddr size

/-- The program leaves no frame for the table of some page, and the pages before it are below the
kernel half. -/
def Plan.RunsOut (plan : Plan) (vm : Vm) (pd : Word) : Prop :=
  ∃ n < plan.requiredPages.toNat, (∀ i < n, pageAt plan.minaddr i < kernelStart) ∧
    vm.pmm.totalBlock.toNat <
      vm.pmm.usedBlock.toNat + plan.requiredPages.toNat + (newTables vm pd plan.minaddr (n + 1)).card

/-- There is no memory for the program or for its tables, or it stays below the kernel half. -/
def Plan.KeepsOut (plan : Plan) (vm : Vm) (pd : Word) (image : Image) : Prop :=
  (vm.pmm.allocMultiBlock plan.requiredPages).1 = 0#32 ∨ plan.RunsOut vm pd ∨ plan.StaysBelow image

/-- The file is refused, or its plan keeps out of the kernel half. -/
def KeepsOut (vm : Vm) (pd : Word) (file : Except ElfErr Image) : Prop :=
  ∀ image plan, file = .ok image → makePlan image = .ok plan → plan.KeepsOut vm pd image

/-! ## Addresses -/

theorem Below.addr {dst size : Word} (below : Below dst size) {j : Nat} (inside : j < size.toNat) :
    dst + BitVec.ofNat 32 j < kernelStart := by
  rcases below with zero | fits
  · rw [zero] at inside
    exact absurd inside (Nat.not_lt_zero _)
  · rw [kernelStart_toNat] at fits
    rw [BitVec.lt_def, BitVec.toNat_add, BitVec.toNat_ofNat, kernelStart_toNat]
    omega

theorem below_of_addrs {dst size : Word} (all : ∀ j < size.toNat, dst + BitVec.ofNat 32 j < kernelStart) : Below dst size := by
  by_contra outside
  rw [Below, not_or, Nat.not_le] at outside
  obtain ⟨nonzero, past⟩ := outside
  have positive : 0 < size.toNat := by
    rcases Nat.eq_zero_or_pos size.toNat with zero | positive
    · exact absurd (BitVec.eq_of_toNat_eq zero) nonzero
    · exact positive
  have first := all 0 positive
  rw [BitVec.lt_def, BitVec.toNat_add, BitVec.toNat_ofNat, kernelStart_toNat] at first
  have small := dst.isLt
  rw [kernelStart_toNat] at past
  have crossing := all (0xc0000000 - dst.toNat) (by omega)
  rw [BitVec.lt_def, BitVec.toNat_add, BitVec.toNat_ofNat, kernelStart_toNat] at crossing
  omega

theorem makePlan_aligned {image : Image} {plan : Plan} (made : makePlan image = .ok plan) :
    plan.minaddr.toNat % 4096 = 0 := by
  simp only [makePlan] at made
  split at made
  · cases made
  · split at made
    · cases made
    · rename_i found
      cases made
      simp only [Option.bind_eq_bind, Option.bind_eq_some_iff, Option.pure_def, Option.some.injEq] at found
      obtain ⟨phtab, _, count, _, b, _, rfl⟩ := found
      have below : (b.minaddr % 4096#32).toNat ≤ b.minaddr.toNat := by
        rw [BitVec.toNat_umod]
        exact Nat.mod_le _ _
      simp only [Bounds.plan]
      rw [BitVec.toNat_sub_of_le (BitVec.le_def.mpr below), BitVec.toNat_umod, BitVec.toNat_ofNat,
        show 4096 % 2 ^ 32 = 4096 from rfl]
      omega
  · cases made

/-! ## What a load that runs to its end has done -/

namespace Load
variable {l l' : Load}

theorem storeBytes_log {bytes : Nat → Option Byte} {dst : Word} {n i : Nat}
    (done : l.storeBytes bytes dst n i = (l', none)) :
    (∀ a ∈ l.log, a ∈ l'.log) ∧ ∀ j, i ≤ j → j < i + n → .stored (dst + BitVec.ofNat 32 j) ∈ l'.log := by
  induction n generalizing l i with
  | zero =>
      cases done
      exact ⟨fun _ member => member, fun j low high => absurd high (by omega)⟩
  | succ n ih =>
      rw [storeBytes] at done
      cases stored : (bytes i).bind fun value => l.storeByte (dst + BitVec.ofNat 32 i) value with
      | none =>
          rw [stored] at done
          cases done
      | some mid =>
          rw [stored] at done
          obtain ⟨kept, later⟩ := ih done
          simp only [Option.bind_eq_some_iff, storeByte, Option.map_eq_some_iff] at stored
          obtain ⟨value, _, frame, _, rfl⟩ := stored
          refine ⟨fun a member => kept a (List.mem_cons_of_mem _ member), fun j low high => ?_⟩
          by_cases here : j = i
          · rw [here]
            exact kept _ List.mem_cons_self
          · exact later j (by omega) (by omega)

theorem copySegment_log {image : Image} {phtab : Word} {i : Nat} (done : l.copySegment image phtab i = (l', none)) :
    (∀ a ∈ l.log, a ∈ l'.log) ∧ ∀ vaddr size, phField image phtab i 8#32 = some vaddr →
      phField image phtab i 16#32 = some size ∨ phField image phtab i 20#32 = some size →
      ∀ j < size.toNat, .stored (vaddr + BitVec.ofNat 32 j) ∈ l'.log := by
  simp only [copySegment] at done
  split at done
  · cases done
  · rename_i header
    simp only [Option.bind_eq_bind, Option.bind_eq_some_iff, Option.pure_def, Option.some.injEq, Prod.mk.injEq] at header
    obtain ⟨vaddr, vaddrField, offset, _, fileSize, fileField, rfl, rfl, rfl⟩ := header
    split at done
    · cases done
    · rename_i copied memcpyDone
      obtain ⟨kept, stored⟩ := storeBytes_log memcpyDone
      split at done
      · cases done
      · rename_i memSize memField
        rw [vaddrField, fileField, memField]
        split_ifs at done with larger
        · -- the bytes after the file's part are cleared
          obtain ⟨keptAfter, cleared⟩ := storeBytes_log done
          refine ⟨fun a member => keptAfter a (kept a member), ?_⟩
          have less := BitVec.lt_def.mp larger
          have rest : (memSize - fileSize).toNat = memSize.toNat - fileSize.toNat :=
            BitVec.toNat_sub_of_le (BitVec.le_of_lt larger)
          have all : ∀ j < memSize.toNat, .stored (vaddr + BitVec.ofNat 32 j) ∈ l'.log := by
            intro j inside
            by_cases inFile : j < fileSize.toNat
            · exact keptAfter _ (stored j (Nat.zero_le _) (by omega))
            · have addr : vaddr + fileSize + BitVec.ofNat 32 (j - fileSize.toNat) = vaddr + BitVec.ofNat 32 j := by
                apply BitVec.eq_of_toNat_eq
                simp only [BitVec.toNat_add, BitVec.toNat_ofNat]
                omega
              rw [← addr]
              exact cleared _ (Nat.zero_le _) (by omega)
          rintro _ size ⟨⟩ (⟨⟨⟩⟩ | ⟨⟨⟩⟩) j inside
          · exact all j (by omega)
          · exact all j inside
        · cases done
          refine ⟨kept, ?_⟩
          have notLess : ¬ fileSize.toNat < memSize.toNat := fun less => larger (BitVec.lt_def.mpr less)
          rintro _ size ⟨⟩ (⟨⟨⟩⟩ | ⟨⟨⟩⟩) j inside
          · exact stored j (Nat.zero_le _) (by omega)
          · exact stored j (Nat.zero_le _) (by omega)

theorem copySegments_log {image : Image} {phtab : Word} {n i : Nat} (done : l.copySegments image phtab n i = (l', none)) :
    (∀ a ∈ l.log, a ∈ l'.log) ∧ ∀ k, i ≤ k → k < i + n → phField image phtab k 0#32 = some elfPtLoad →
      ∀ vaddr size, phField image phtab k 8#32 = some vaddr →
        phField image phtab k 16#32 = some size ∨ phField image phtab k 20#32 = some size →
        ∀ j < size.toNat, .stored (vaddr + BitVec.ofNat 32 j) ∈ l'.log := by
  induction n generalizing l i with
  | zero =>
      cases done
      exact ⟨fun _ member => member, fun k low high => absurd high (by omega)⟩
  | succ n ih =>
      rw [copySegments] at done
      split at done
      · cases done
      · rename_i type typeField
        split_ifs at done with skipped
        · obtain ⟨kept, later⟩ := ih done
          refine ⟨kept, fun k low high loads => ?_⟩
          refine later k ?_ (by omega) loads
          rcases Nat.lt_or_eq_of_le low with less | rfl
          · exact less
          · rw [typeField] at loads
            cases loads
            exact absurd rfl skipped
        · split at done
          · cases done
          · rename_i mid segmentDone
            obtain ⟨first, stored⟩ := copySegment_log segmentDone
            obtain ⟨kept, later⟩ := ih done
            refine ⟨fun a member => kept a (first a member), fun k low high loads vaddr size isVaddr isSize j inside => ?_⟩
            rcases Nat.lt_or_eq_of_le low with less | rfl
            · exact later k less (by omega) loads vaddr size isVaddr isSize j inside
            · exact kept _ (stored vaddr size isVaddr isSize j inside)

theorem fill_log {image : Image} {plan : Plan} {pd entry : Word} (loaded : l.fill image plan pd = (l', .ok entry)) :
    (∀ a ∈ l.log, a ∈ l'.log) ∧ ∀ k < plan.count, phField image plan.phtab k 0#32 = some elfPtLoad →
      ∀ vaddr size, phField image plan.phtab k 8#32 = some vaddr →
        phField image plan.phtab k 16#32 = some size ∨ phField image plan.phtab k 20#32 = some size →
        ∀ j < size.toNat, .stored (vaddr + BitVec.ofNat 32 j) ∈ l'.log := by
  simp only [fill] at loaded
  split at loaded
  · cases loaded
  · rename_i filled done
    obtain ⟨kept, stored⟩ := copySegments_log done
    split at loaded
    · cases loaded
    · cases loaded
      exact ⟨kept, fun k inside => stored k (Nat.zero_le _) (by omega)⟩

theorem storeBytes_stop {bytes : Nat → Option Byte} {dst : Word} {n i : Nat} {stop : Stop}
    (stopped : l.storeBytes bytes dst n i = (l', some stop)) : stop = .fault := by
  induction n generalizing l i with
  | zero => cases stopped
  | succ n ih =>
      rw [storeBytes] at stopped
      split at stopped
      · cases stopped
        rfl
      · exact ih stopped

theorem copySegment_stop {image : Image} {phtab : Word} {i : Nat} {stop : Stop}
    (stopped : l.copySegment image phtab i = (l', some stop)) : stop = .fault := by
  simp only [copySegment] at stopped
  split at stopped
  · cases stopped
    rfl
  · split at stopped
    · rename_i copied
      cases stopped
      exact storeBytes_stop copied
    · split at stopped
      · cases stopped
        rfl
      · split_ifs at stopped
        · exact storeBytes_stop stopped
        · cases stopped

theorem copySegments_stop {image : Image} {phtab : Word} {n i : Nat} {stop : Stop}
    (stopped : l.copySegments image phtab n i = (l', some stop)) : stop = .fault := by
  induction n generalizing l i with
  | zero => cases stopped
  | succ n ih =>
      rw [copySegments] at stopped
      split at stopped
      · cases stopped
        rfl
      · split_ifs at stopped
        · exact ih stopped
        · split at stopped
          · rename_i copied
            cases stopped
            exact copySegment_stop copied
          · exact ih stopped

theorem fill_ok {image : Image} {plan : Plan} {pd : Word} (noFault : (l.fill image plan pd).2 ≠ .error .fault) :
    ∃ l' entry, l.fill image plan pd = (l', .ok entry) := by
  simp only [fill] at noFault ⊢
  split at noFault
  · rename_i stopped
    exact absurd (congrArg Except.error (copySegments_stop stopped)) noFault
  · split at noFault
    · exact absurd rfl noFault
    · exact ⟨_, _, rfl⟩

/-! ## What a plan below the kernel half keeps -/

section Kept
variable {start : Pmm} {dirs : List Word} {slots : Word} {s : AddressSpace} {before : Vm}

/-- Where the loader stands while it writes the segments. -/
structure Filling (start : Pmm) (before : Vm) (s : AddressSpace) (l : Load) : Prop where
  copying : Copying start before s l.vm
  below : ∀ access ∈ l.log, access.addr < kernelStart

theorem Filling.storeBytes (populated : Populated start dirs slots s) {bytes : Nat → Option Byte} {dst : Word} {n i : Nat}
    (filling : Filling start before s l) (fits : ∀ j, i ≤ j → j < i + n → dst + BitVec.ofNat 32 j < kernelStart) :
    Filling start before s (l.storeBytes bytes dst n i).1 := by
  induction n generalizing l i with
  | zero => exact filling
  | succ n ih =>
      rw [Load.storeBytes]
      cases stored : (bytes i).bind fun value => l.storeByte (dst + BitVec.ofNat 32 i) value with
      | none => exact filling
      | some mid =>
          have user := fits i (Nat.le_refl i) (by omega)
          simp only [Option.bind_eq_some_iff, storeByte, Option.map_eq_some_iff] at stored
          obtain ⟨value, _, frame, walked, rfl⟩ := stored
          refine ih ⟨filling.copying.write populated user walked _ _, ?_⟩ fun j low high => fits j (by omega) (by omega)
          intro access member
          rcases List.mem_cons.mp member with rfl | old
          · exact user
          · exact filling.below access old

theorem Filling.copySegment (populated : Populated start dirs slots s) {image : Image} {phtab : Word} {i : Nat}
    (filling : Filling start before s l) (fits : ∀ vaddr size, phField image phtab i 8#32 = some vaddr →
      phField image phtab i 16#32 = some size ∨ phField image phtab i 20#32 = some size → Below vaddr size) :
    Filling start before s (l.copySegment image phtab i).1 := by
  simp only [Load.copySegment]
  split
  · exact filling
  · rename_i header
    simp only [Option.bind_eq_bind, Option.bind_eq_some_iff, Option.pure_def, Option.some.injEq, Prod.mk.injEq] at header
    obtain ⟨vaddr, vaddrField, offset, _, fileSize, fileField, rfl, rfl, rfl⟩ := header
    have file := fits vaddr fileSize vaddrField (.inl fileField)
    have copied : Filling start before s (l.memcpy image vaddr offset fileSize).1 :=
      filling.storeBytes populated fun j _ inside => file.addr (by omega)
    split
    · rename_i done
      rwa [done] at copied
    · rename_i done
      rw [done] at copied
      split
      · exact copied
      · rename_i memSize memField
        have mem := fits vaddr memSize vaddrField (.inr memField)
        split_ifs with larger
        · have less := BitVec.lt_def.mp larger
          have rest : (memSize - fileSize).toNat = memSize.toNat - fileSize.toNat :=
            BitVec.toNat_sub_of_le (BitVec.le_of_lt larger)
          refine copied.storeBytes populated fun j _ inside => ?_
          have addr : vaddr + fileSize + BitVec.ofNat 32 j = vaddr + BitVec.ofNat 32 (fileSize.toNat + j) := by
            apply BitVec.eq_of_toNat_eq
            simp only [BitVec.toNat_add, BitVec.toNat_ofNat]
            omega
          rw [addr]
          exact mem.addr (by omega)
        · exact copied

theorem Filling.copySegments (populated : Populated start dirs slots s) {image : Image} {phtab : Word} {n i : Nat}
    (filling : Filling start before s l) (fits : ∀ k, i ≤ k → k < i + n → phField image phtab k 0#32 = some elfPtLoad →
      ∀ vaddr size, phField image phtab k 8#32 = some vaddr →
        phField image phtab k 16#32 = some size ∨ phField image phtab k 20#32 = some size → Below vaddr size) :
    Filling start before s (l.copySegments image phtab n i).1 := by
  induction n generalizing l i with
  | zero => exact filling
  | succ n ih =>
      have later := fun (l : Load) (filling : Filling start before s l) =>
        ih (i := i + 1) filling fun k low high => fits k (by omega) (by omega)
      rw [Load.copySegments]
      split
      · exact filling
      · rename_i type typeField
        split_ifs with skipped
        · exact later l filling
        · have loads : type = elfPtLoad := not_not.mp skipped
          rw [loads] at typeField
          have segment := filling.copySegment populated (fits i (Nat.le_refl i) (by omega) typeField)
          split
          · rename_i done
            rwa [done] at segment
          · rename_i mid done
            rw [done] at segment
            exact later mid segment

end Kept
end Load

/-! ## The whole load -/

section Whole
variable {m : Vm} {dirs : List Word} {slots kernelPd : Word} (housed : m.Housed dirs slots) (kernel : kernelPd ∈ dirs)
  (found : m.pmm.allocBlock.1 ≠ 0#32)
include housed kernel found

theorem isolated_of_spared {l : Load} (spared : Spared m.pmm (m.fresh kernelPd) m.pmm.allocBlock.1 l.vm)
    (below : ∀ access ∈ l.log, access.addr < kernelStart) :
    Isolated (m.fresh kernelPd) m.pmm.allocBlock.1 kernelPd l := by
  refine ⟨below, fun k low _ => spared.directory k low, spared.used _ (housed.dirsUsed _ kernel), fun k low high => ?_⟩
  rw [housed.word_fresh_old found kernel]
  exact fun present => spared.used _ (housed.tablesUsed _ kernel k high present)

theorem fill_isolated {t : AddressSpace} {mapped : Load} {image : Image} {plan : Plan}
    (populated : Populated m.pmm dirs slots t) (samePd : t.pd = m.pmm.allocBlock.1) (sameVm : t.vm = mapped.vm)
    (spared : Spared m.pmm (m.fresh kernelPd) t.pd t.vm) (logBelow : ∀ access ∈ mapped.log, access.addr < kernelStart)
    (below : plan.StaysBelow image) :
    Isolated (m.fresh kernelPd) m.pmm.allocBlock.1 kernelPd (mapped.fill image plan m.pmm.allocBlock.1).1 := by
  have words : (mapped.switch m.pmm.allocBlock.1).vm.word = t.vm.word := by
    rw [sameVm]
    rfl
  have start : Load.Filling m.pmm (m.fresh kernelPd) t (mapped.switch m.pmm.allocBlock.1) := by
    refine ⟨⟨samePd.symm, by rw [words], fun _ _ _ => by rw [words], ⟨fun k high => ?_, fun g used => ?_⟩⟩, logBelow⟩
    · rw [words, spared.directory k high]
    · rw [words, spared.used g used]
  have filled := start.copySegments populated (n := plan.count) (i := 0)
    fun k _ inside => below.segments k (by omega)
  have kept := filled.copying.spared
  rw [samePd] at kept
  simp only [Load.fill]
  split
  · rename_i done
    rw [done] at filled kept
    exact isolated_of_spared housed kernel found kept filled.below
  · rename_i done
    rw [done] at filled kept
    split
    · exact isolated_of_spared housed kernel found kept filled.below
    · exact isolated_of_spared housed kernel found ⟨kept.directory, kept.used⟩ filled.below

theorem run_ends (noUser : ∀ k < 768, m.word kernelPd k = 0#32) (closed : Closed m slots) {plan : Plan}
    (aligned : plan.minaddr.toNat % 4096 = 0) {phys : Word} {pmm : Pmm} (flags : Word)
    (handed : (m.fresh kernelPd).pmm.allocMultiBlock plan.requiredPages = (phys, pmm)) (nonzero : phys ≠ 0#32) :
    Load.Ends m.pmm dirs slots (m.fresh kernelPd) m.pmm.allocBlock.1 phys plan.minaddr plan.requiredPages.toNat
      ((m.fresh kernelPd).pmm.usedBlock.toNat + plan.requiredPages.toNat)
      (Load.mapPages ⟨{ m.fresh kernelPd with pmm := pmm }, []⟩ m.pmm.allocBlock.1 phys plan.minaddr flags
        plan.requiredPages.toNat 0) := by
  set made := m.fresh kernelPd with madeDef
  have populated := fresh_populated housed kernel noUser found
  have madeClosed : Closed made slots := by
    have notNew := housed.alloc_notSlots found
    have words : ∀ k, made.word slots k = if k = 1023 then 0#32 else m.word slots k := by
      intro k
      rw [madeDef, Vm.fresh, Vm.withDirectory, Vm.word_write, Vm.kernelTable_withPmm, housed.kernelTable, Vm.word_setWords,
        if_neg notNew.symm]
      simp only [true_and]
      rfl
    exact ⟨by rw [words, if_neg (by decide), closed.1], by rw [words, if_pos rfl]⟩
  have alloc := Pmm.allocMultiBlock_spec populated.housed.pmm plan.requiredPages
  have filled := populated.handOut alloc
  have used := alloc.used populated.housed.pmm (by rw [handed]; exact nonzero)
  obtain ⟨first, _, addr, free, _⟩ := alloc.takes (by rw [handed]; exact nonzero)
  have inside : first + plan.requiredPages.toNat ≤ bitmapWords * 32 := Nat.le_trans free.1 populated.housed.pmm.fits
  rw [AddressSpace.handOut, if_neg (by rw [handed]; exact nonzero)] at filled
  rw [handed] at filled used addr
  have mapping : Load.Mapping m.pmm dirs slots made phys plan.minaddr plan.requiredPages.toNat
      (made.pmm.usedBlock.toNat + plan.requiredPages.toNat) 0
      ⟨made.withPmm pmm, m.pmm.allocBlock.1, framesFrom phys plan.requiredPages.toNat ++ [], []⟩
      ⟨{ made with pmm := pmm }, []⟩ := by
    refine ⟨filled, ⟨fun _ _ => rfl, fun _ _ => rfl⟩, rfl, by simp, by simp, fun k _ high => ?_, by simp, ?_, fun k => ?_⟩
    · rw [List.append_nil]
      exact List.mem_map_of_mem (f := fun i => phys + BitVec.ofNat 32 (i * pageSize)) (List.mem_range.mpr high)
    · simpa [newTables] using used
    · simp [newTables]
  refine mapping.mapPages (Nat.zero_add _) aligned madeClosed fun j hj k hk equal => ?_
  have values := congrArg BitVec.toNat equal
  rw [BitVec.toNat_add, BitVec.toNat_ofNat, BitVec.toNat_add, BitVec.toNat_ofNat, addr] at values
  simp only [bitmapWords, pageSize] at inside values
  omega

theorem run_isolated_iff (noUser : ∀ k < 768, m.word kernelPd k = 0#32) (closed : Closed m slots) (image : Image) {plan : Plan}
    (aligned : plan.minaddr.toNat % 4096 = 0) :
    (plan.KeepsOut (m.fresh kernelPd) m.pmm.allocBlock.1 image →
      Isolated (m.fresh kernelPd) m.pmm.allocBlock.1 kernelPd
        (Load.run ⟨m.fresh kernelPd, []⟩ image plan m.pmm.allocBlock.1 kernelPd).1) ∧
    ((Load.run ⟨m.fresh kernelPd, []⟩ image plan m.pmm.allocBlock.1 kernelPd).2 ≠ .error .fault →
      Isolated (m.fresh kernelPd) m.pmm.allocBlock.1 kernelPd
        (Load.run ⟨m.fresh kernelPd, []⟩ image plan m.pmm.allocBlock.1 kernelPd).1 →
      plan.KeepsOut (m.fresh kernelPd) m.pmm.allocBlock.1 image) := by
  have blocks : (m.fresh kernelPd).pmm.totalBlock = m.pmm.totalBlock := (Pmm.allocBlock_spec housed.pmm).total
  obtain ⟨phys, pmm, handed⟩ : ∃ phys pmm, (m.fresh kernelPd).pmm.allocMultiBlock plan.requiredPages = (phys, pmm) :=
    ⟨_, _, rfl⟩
  simp only [Load.run, Plan.KeepsOut, Plan.RunsOut, blocks, handed]
  by_cases refused : phys = 0#32
  · rw [if_pos refused]
    exact ⟨fun _ => isolated_of_spared housed kernel found ⟨fun _ _ => rfl, fun _ _ => rfl⟩ (by simp),
      fun _ _ => .inl refused⟩
  rw [if_neg refused]
  have positive : 0 < plan.requiredPages.toNat := by
    refine Nat.pos_of_ne_zero fun zero => refused ?_
    have empty : plan.requiredPages = 0 := BitVec.eq_of_toNat_eq zero
    rw [empty] at handed
    exact (congrArg Prod.fst handed).symm.trans (Pmm.allocMultiBlock_zero _)
  have ends := run_ends housed kernel found noUser closed aligned (Load.mapFlags m.pmm.allocBlock.1 kernelPd) handed refused
  generalize Load.mapPages ⟨{ m.fresh kernelPd with pmm := pmm }, []⟩ m.pmm.allocBlock.1 phys plan.minaddr
    (Load.mapFlags m.pmm.allocBlock.1 kernelPd) plan.requiredPages.toNat 0 = out at ends
  obtain ⟨l, stop⟩ := out
  cases ends with
  | mapped t same all mapping =>
      obtain rfl : stop = none := all
      have pages := pages_below_of_addrs aligned positive mapping.user
      refine ⟨?_, fun noFault isolated => .inr (.inr ⟨pages, fun k inside loads vaddr size isVaddr isSize => ?_⟩)⟩
      · rintro (zero | ⟨n, inside, _, short⟩ | below)
        · exact absurd zero refused
        · have fits := mapping.fits
          have least := Load.newTables_mono (m.fresh kernelPd) t.pd plan.minaddr
            (show n + 1 ≤ plan.requiredPages.toNat from inside)
          rw [same] at fits least
          omega
        · exact fill_isolated housed kernel found mapping.populated same mapping.same.symm mapping.spared mapping.below below
      · obtain ⟨l', entry, filled⟩ := Load.fill_ok noFault
        obtain ⟨_, stored⟩ := Load.fill_log filled
        simp only [filled] at isolated
        exact below_of_addrs fun j within => isolated.below _ (stored k inside loads vaddr size isVaddr isSize j within)
  | ranOut n inside user short spared below stopped =>
      obtain rfl : stop = some (.failed .oom) := stopped
      exact ⟨fun _ => isolated_of_spared housed kernel found spared below, fun _ _ => .inr (.inl ⟨n, inside, user, short⟩)⟩
  | crossed n inside user past room logged =>
      refine ⟨?_, fun noFault isolated => absurd past (BitVec.not_le.mpr ?_)⟩
      · rintro (zero | ⟨k, _, before, short⟩ | below)
        · exact absurd zero refused
        · have least : k ≤ n := Nat.le_of_not_lt fun greater => absurd past (BitVec.not_le.mpr (before n greater))
          have fewer := Load.newTables_mono (m.fresh kernelPd) m.pmm.allocBlock.1 plan.minaddr
            (show k + 1 ≤ n + 1 by omega)
          omega
        · exact absurd past (BitVec.not_le.mpr (pageOf_add below.pages inside).1)
      · cases stop with
        | some stop =>
            rcases logged with fault | logged
            · cases fault
              exact absurd rfl noFault
            · exact isolated.below _ logged
        | none =>
            obtain ⟨l', entry, filled⟩ := Load.fill_ok noFault
            simp only [filled] at isolated
            exact isolated.below _ ((Load.fill_log filled).1 _ (logged.resolve_left (by simp)))

end Whole

/-- A fresh directory is kept apart from the kernel by every load of a file that is refused, has
too little memory or stays below the kernel half, however the load ends; and, loads that fault
aside, by no other. -/
theorem executable_isolated_iff (m : Vm) (dirs : List Word) (slots : Word) (housed : m.Housed dirs slots)
    (closed : Closed m slots) (kernelPd : Word) (kernel : kernelPd ∈ dirs) (noUser : ∀ k < 768, m.word kernelPd k = 0#32)
    (pd : Word) (made : Vm) (alloc : m.vmmngrAllocPageDirectory kernelPd = some (pd, made)) (nonzero : pd ≠ 0#32)
    (file : Except ElfErr Image) :
    (KeepsOut made pd file → Isolated made pd kernelPd (elfLoad made file pd kernelPd).1) ∧
    ((elfLoad made file pd kernelPd).2 ≠ .error .fault →
      (Isolated made pd kernelPd (elfLoad made file pd kernelPd).1 ↔ KeepsOut made pd file)) := by
  by_cases refused : m.pmm.allocBlock.1 = 0#32
  · have full : m.pmm.allocBlock = (0#32, m.pmm) := Prod.ext refused ((Pmm.allocBlock_spec housed.pmm).keeps refused)
    rw [Vm.allocPageDirectory_none full] at alloc
    cases alloc
    exact absurd rfl nonzero
  rw [housed.allocPageDirectory kernel refused] at alloc
  cases alloc
  have idle : Isolated (m.fresh kernelPd) m.pmm.allocBlock.1 kernelPd ⟨m.fresh kernelPd, []⟩ :=
    isolated_of_spared housed kernel refused ⟨fun _ _ => rfl, fun _ _ => rfl⟩ (by simp)
  cases file with
  | error err => exact ⟨fun _ => idle, fun _ => iff_of_true idle fun _ _ other => by cases other⟩
  | ok image =>
      simp only [elfLoad]
      cases planned : makePlan image with
      | error stop =>
          refine ⟨fun _ => idle, fun _ => iff_of_true idle ?_⟩
          rintro _ plan ⟨⟩ other
          rw [planned] at other
          cases other
      | ok plan =>
          have one : KeepsOut (m.fresh kernelPd) m.pmm.allocBlock.1 (.ok image) ↔
              plan.KeepsOut (m.fresh kernelPd) m.pmm.allocBlock.1 image := by
            refine ⟨fun keepsOut => keepsOut image plan rfl planned, ?_⟩
            rintro keepsOut _ _ ⟨⟩ again
            rw [planned] at again
            cases again
            exact keepsOut
          obtain ⟨enough, needed⟩ := run_isolated_iff housed kernel refused noUser closed image
            (makePlan_aligned planned)
          rw [one]
          exact ⟨enough, fun noFault => ⟨needed noFault, enough⟩⟩

/-- A file that holds the given bytes and zeros. -/
def fileOf (bytes : List (Nat × Byte)) : Image := fun offset => some ((bytes.lookup offset.toNat).getD 0#8)

-- the fields that `elf_validate` looks at
def elfHeader : List (Nat × Byte) := [(0, 0x7f#8), (1, 0x45#8), (2, 0x4c#8), (3, 0x46#8), (4, 1#8), (5, 1#8), (18, 3#8)]

-- one segment of 4 bytes at 0x400000, with its header right after the file's
def oneSegment : Image :=
  fileOf (elfHeader ++ [(28, 52#8), (44, 1#8), (52, 1#8), (62, 0x40#8), (68, 4#8), (72, 4#8)])

theorem oneSegment_plan : makePlan oneSegment = .ok ⟨52#32, 1, 0x400000#32, 1#32⟩ := by
  rfl

theorem oneSegment_below : KeepsOut processMade.vm 0x3000#32 (.ok oneSegment) := by
  rintro image plan ⟨⟩ planned
  rw [oneSegment_plan] at planned
  cases planned
  refine .inr (.inr ⟨by decide, fun i inside _ vaddr size isVaddr isSize => ?_⟩)
  have only : i = 0 := by
    simp only at inside
    omega
  subst only
  have start : phField oneSegment 52#32 0 8#32 = some 0x400000#32 := rfl
  have fileSize : phField oneSegment 52#32 0 16#32 = some 4#32 := rfl
  have memSize : phField oneSegment 52#32 0 20#32 = some 4#32 := rfl
  simp only [start, fileSize, memSize, Option.some.injEq, or_self] at isVaddr isSize
  subst isVaddr isSize
  exact .inr (by decide)

theorem bootedKernel_closed : Closed bootedKernel bootedKernel.kernelTable := ⟨by decide, by decide⟩

theorem processMade_alloc : bootedKernel.vmmngrAllocPageDirectory bootedKernel.cr3 = some (0x3000#32, processMade.vm) := by
  have made := bootedKernel_housed.allocPageDirectory (List.mem_singleton_self _) (by decide)
  rwa [show bootedKernel.pmm.allocBlock.1 = 0x3000#32 by decide] at made

theorem executable_isolated_iff_one_segment :
    Isolated processMade.vm 0x3000#32 0x1000#32 (elfLoad processMade.vm (.ok oneSegment) 0x3000#32 0x1000#32).1 :=
  (executable_isolated_iff bootedKernel _ _ bootedKernel_housed bootedKernel_closed 0x1000#32 (List.mem_singleton_self _)
    bootedKernel_noUser 0x3000#32 processMade.vm processMade_alloc (by decide) (.ok oneSegment)).1 oneSegment_below

/-- An executable without loadable segments gets one page, at the last address of all: the new
frame takes the place of the recursive entry. -/
theorem executable_not_isolated :
    ¬ Isolated processMade.vm 0x3000#32 0x1000#32 (elfLoad processMade.vm (.ok (fileOf elfHeader)) 0x3000#32 0x1000#32).1 := by
  have lost : (elfLoad processMade.vm (.ok (fileOf elfHeader)) 0x3000#32 0x1000#32).1.vm.word 0x3000#32 1023 = 0x4007#32 := by
    decide
  have own : processMade.vm.word 0x3000#32 1023 = 0x3003#32 := by decide
  intro isolated
  have kept := isolated.directory 1023 (by decide) (by decide)
  rw [lost, own] at kept
  cases kept

end Kerosene.Elf
