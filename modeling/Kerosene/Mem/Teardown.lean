import Kerosene.Mem.FrameAccounts

/-!
# Freeing a page directory
-/

namespace Kerosene.Mem
open Lib Spaces

/-- The frame of an entry, if it has one. -/
def mappedFrame (entry : Word) : List Word := if frameOf entry = 0#32 then [] else [frameOf entry]

def entryFrames (table : Nat → Word) : List Word := (List.range 1024).flatMap fun k => mappedFrame (table k)

namespace Vm
variable {m : Vm} {pd : Word}

/-- What the loop frees for entry `i` of the directory: the frames of the table and the table. -/
def tableFrames (m : Vm) (pd : Word) (i : Nat) : List Word :=
  if m.word pd i = 0#32 then [] else entryFrames (m.word (frameOf (m.word pd i))) ++ [frameOf (m.word pd i)]

def freedFrames (m : Vm) (pd : Word) : List Word := (List.range 768).flatMap (m.tableFrames pd) ++ [pd]

/-! ## The loops -/

@[simp] theorem load_withPmm (m : Vm) (pmm : Pmm) (addr : Word) : (m.withPmm pmm).load addr = m.load addr := rfl

theorem freeEntries_eq {table : Word} {words : Nat → Word} (shown : ∀ k < 1024, m.load (entryAddr table k) = some (words k))
    {n j : Nat} (inside : j + n ≤ 1024) (pmm : Pmm) :
    (m.withPmm pmm).freeEntries table n j =
      some (m.withPmm (((List.range' j n).flatMap fun k => mappedFrame (words k)).foldl Pmm.freeBlock pmm)) := by
  induction n generalizing j pmm with
  | zero => rfl
  | succ n ih =>
      rw [freeEntries, load_withPmm, shown j (by omega), Option.bind_eq_bind, Option.bind_some, List.range'_succ,
        List.flatMap_cons, List.foldl_append, mappedFrame]
      by_cases empty : frameOf (words j) = 0#32
      · rw [if_pos empty, if_neg (not_not.mpr empty)]
        exact ih (j := j + 1) (by omega) pmm
      · rw [if_neg empty, if_pos empty]
        exact ih (j := j + 1) (by omega) (pmm.freeBlock (frameOf (words j)))

/-- Memory as `m` but for the two slots, of which the second shows `pd`. -/
structure Views (m : Vm) (pd : Word) (m' : Vm) : Prop where
  root : m'.cr3 = m.cr3
  words : ∀ g k, ¬ (g = m.kernelTable ∧ (k = 1022 ∨ k = 1023)) → m'.word g k = m.word g k
  slot : m'.word m.kernelTable 1023 = pd ||| entryPresent ||| entryWritable

variable {m' : Vm}

theorem Views.word_frame (views : m.Views pd m') {g : Word} (other : g ≠ m.kernelTable) : m'.word g = m.word g := by
  funext k
  exact views.words g k fun h => other h.1

theorem Views.ready (views : m.Views pd m') (foreign : m.Foreign pd) : m'.Ready :=
  foreign.ready.congr views.root (views.word_frame foreign.ready.kernelTable_ne.symm)

theorem Views.kernelTable (views : m.Views pd m') (foreign : m.Foreign pd) : m'.kernelTable = m.kernelTable :=
  kernelTable_congr views.root (views.word_frame foreign.ready.kernelTable_ne.symm)

theorem Views.loadEntry (views : m.Views pd m') (foreign : m.Foreign pd) {i : Nat} (hi : i < 1024) :
    m'.load (entryAddr vmmngrTempPd i) = some (m.word pd i) := by
  have slot := views.slot
  rw [← views.kernelTable foreign] at slot
  rw [((views.ready foreign).slotWindow (fun _ hk => tempPd_splits hk) foreign.aligned slot hi).load,
    views.word_frame foreign.notTable]

theorem Views.withPmm (views : m.Views pd m') (pmm : Pmm) : m.Views pd (m'.withPmm pmm) :=
  ⟨views.root, views.words, views.slot⟩

theorem Views.writeSlot (views : m.Views pd m') (value : Word) : m.Views pd (m'.write m.kernelTable 1022 value) := by
  refine ⟨views.root, fun g k outside => ?_, ?_⟩
  · rw [word_write, if_neg (fun h => outside ⟨h.1, .inl h.2⟩)]
    exact views.words g k outside
  · rw [word_write, if_neg (by simp)]
    exact views.slot

theorem Views.freeTable (views : m.Views pd m') (foreign : m.Foreign pd) {table : Word} (aligned : Aligned table)
    (other : table ≠ m.kernelTable) :
    (do
      let m ← m'.mapTemporaryPt table
      let m ← m.freeEntries vmmngrTempTable 1024 0
      let m := { m with pmm := m.pmm.freeBlock table }
      m.unmapTemporaryPt) =
      some (((m'.write m.kernelTable 1022 (table ||| entryPresent ||| entryWritable)).withPmm
        ((entryFrames (m.word table) ++ [table]).foldl Pmm.freeBlock m'.pmm)).write m.kernelTable 1022 0#32) := by
  have stored := (views.ready foreign).storeTemp (t := 1022) (by decide) (table ||| entryPresent ||| entryWritable)
  rw [views.kernelTable foreign] at stored
  have opened := views.writeSlot (table ||| entryPresent ||| entryWritable)
  set open₁ := m'.write m.kernelTable 1022 (table ||| entryPresent ||| entryWritable) with open₁Def
  have slot : open₁.word open₁.kernelTable 1022 = table ||| entryPresent ||| entryWritable := by
    rw [opened.kernelTable foreign, open₁Def, word_write_self]
  have shown : ∀ k < 1024, open₁.load (entryAddr vmmngrTempTable k) = some (m.word table k) := by
    intro k hk
    rw [((opened.ready foreign).tableWindow aligned slot hk).load, opened.word_frame other]
  have freed := freeEntries_eq shown (n := 1024) (j := 0) (by decide) m'.pmm
  have same : open₁.withPmm m'.pmm = open₁ := rfl
  have entries : ((List.range' 0 1024).flatMap fun k => mappedFrame (m.word table k)) = entryFrames (m.word table) := by
    rw [entryFrames, List.range_eq_range']
  rw [same, entries] at freed
  have closing := (opened.withPmm ((entryFrames (m.word table)).foldl Pmm.freeBlock m'.pmm |>.freeBlock table))
  have closed := (closing.ready foreign).storeTemp (t := 1022) (by decide) 0#32
  rw [closing.kernelTable foreign] at closed
  simp only [mapTemporaryPt, unmapTemporaryPt, Option.bind_eq_bind]
  rw [show tempTableEntry = entryAddr (pageTableAddr 768) 1022 from rfl, stored, Option.bind_some, freed,
    Option.bind_some, List.foldl_append]
  generalize (entryFrames (m.word table)).foldl Pmm.freeBlock m'.pmm = entriesFreed at closed ⊢
  exact closed

theorem Views.freeTables (views : m.Views pd m') (foreign : m.Foreign pd)
    (apart : ∀ i < 768, m.word pd i ≠ 0#32 → frameOf (m.word pd i) ≠ m.kernelTable) {n i : Nat} (sum : i + n = 768) :
    ∃ m'', m'.freeTables vmmngrTempPd (n + 256) i = some m'' ∧ m.Views pd m'' ∧
      m''.pmm = ((List.range' i n).flatMap (m.tableFrames pd)).foldl Pmm.freeBlock m'.pmm := by
  induction n generalizing i m' with
  | zero =>
      refine ⟨m', ?_, views, rfl⟩
      have here : i = 768 := by omega
      subst here
      rfl
  | succ n ih =>
      have below : ¬ BitVec.ofNat 32 (i * 4096 * 1024) ≥ kernelStart := by
        rw [ge_iff_le, BitVec.le_def, BitVec.toNat_ofNat, kernelStart, BitVec.toNat_ofNat]
        omega
      rw [show n + 1 + 256 = (n + 256) + 1 by omega, Vm.freeTables, if_neg below, views.loadEntry foreign (by omega),
        List.range'_succ, List.flatMap_cons, List.foldl_append, tableFrames, Option.bind_eq_bind, Option.bind_some]
      by_cases empty : m.word pd i = 0#32
      · rw [if_pos empty, if_pos empty]
        obtain ⟨m'', done, kept, pmm⟩ := ih (i := i + 1) views (by omega)
        exact ⟨m'', by rw [done], kept, pmm⟩
      · rw [if_neg empty, if_neg empty]
        have freed := views.freeTable foreign (frameOf_aligned (m.word pd i)) (apart i (by omega) empty)
        have after := ((views.writeSlot (frameOf (m.word pd i) ||| entryPresent ||| entryWritable)).withPmm
          ((entryFrames (m.word (frameOf (m.word pd i))) ++ [frameOf (m.word pd i)]).foldl Pmm.freeBlock m'.pmm)).writeSlot
          0#32
        obtain ⟨m'', done, kept, pmm⟩ := ih (i := i + 1) after (by omega)
        rw [pmm_write, pmm_withPmm] at pmm
        refine ⟨m'', ?_, kept, pmm⟩
        simp only [Option.bind_eq_bind, Option.bind_eq_some_iff] at freed
        obtain ⟨opened, openedEq, entries, entriesEq, closedEq⟩ := freed
        simp only [Option.bind_eq_bind, openedEq, Option.bind_some, entriesEq, closedEq, done]

/-- `vmmngr_free_page_directory` frees `freedFrames`, one after the other, and changes nothing else
but the slots. -/
theorem Foreign.freePageDirectory (foreign : m.Foreign pd)
    (apart : ∀ i < 768, m.word pd i ≠ 0#32 → frameOf (m.word pd i) ≠ m.kernelTable) :
    ∃ m', m.vmmngrFreePageDirectory pd = some m' ∧ m'.cr3 = m.cr3 ∧
      (∀ g k, ¬ (g = m.kernelTable ∧ (k = 1022 ∨ k = 1023)) → m'.word g k = m.word g k) ∧
      m'.pmm = (m.freedFrames pd).foldl Pmm.freeBlock m.pmm := by
  have stored := foreign.ready.storeTemp (t := 1023) (by decide) (pd ||| entryPresent ||| entryWritable)
  have opened : m.Views pd (m.openedPd pd) :=
    ⟨rfl, fun g k outside => by rw [openedPd, word_write, if_neg fun h => outside ⟨h.1, .inr h.2⟩],
      word_write_self _ _ _ _⟩
  obtain ⟨m'', freed, views, pmm⟩ := opened.freeTables foreign apart (n := 768) (i := 0) rfl
  have last := views.withPmm (m''.pmm.freeBlock pd)
  have closed := (last.ready foreign).storeTemp (t := 1023) (by decide) 0#32
  rw [last.kernelTable foreign] at closed
  refine ⟨(m''.withPmm (m''.pmm.freeBlock pd)).write m.kernelTable 1023 0#32, ?_, views.root, fun g k outside => ?_, ?_⟩
  · simp only [vmmngrFreePageDirectory, mapTemporaryPd, unmapTemporaryPd, Option.bind_eq_bind]
    rw [show tempPdEntry = entryAddr (pageTableAddr 768) 1023 from rfl, stored, Option.bind_some,
      show m.write m.kernelTable 1023 (pd ||| entryPresent ||| entryWritable) = m.openedPd pd from rfl, freed,
      Option.bind_some]
    exact closed
  · rw [word_write, if_neg (fun h => outside ⟨h.1, .inr h.2⟩)]
    exact views.words g k outside
  · rw [freedFrames, List.foldl_append, List.range_eq_range']
    exact congrArg (fun p => Pmm.freeBlock p pd) pmm

end Vm
end Kerosene.Mem
